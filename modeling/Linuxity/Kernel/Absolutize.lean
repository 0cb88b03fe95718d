import Linuxity.Kernel.Classify

/-!
# Kernel.Absolutize — from a path argument to an absolute guest path (`kernel/file_namespace.hpp`)

A relative path is joined to a directory, and `..` behind a link goes to the parent of the link's
target.  `none` stands for the uncaught exception of the source: with a link that leads to the
root, `cur` is empty when its last component is to be cut off, and `resize` throws.
-/

namespace Linuxity.Kernel

open Posix Wire Option

def World.cwdOf (w : World) (pid : Int) : Str := (w.cwds pid).getD slash

def World.cwd (w : World) : Str := w.cwdOf w.curPid

/-- One component in the loop of `resolve_dotdot`; the empty string stands for the root. -/
def dotdotStep (phys : Str → Option Str) (cur c : Str) : Option Str :=
  if c = dot then some cur
  else if c ≠ dotdot then some (cur ++ '/' :: c)
  else if cur = [] then some cur
  else do
    let target ← phys cur
    let cur := if target = [] then cur else if target = slash then [] else target
    if cur = [] then none else some (dirOf cur)

/-- `resolve_dotdot`, given the physical path of a link. -/
def resolveDotdotWith (phys : Str → Option Str) (p : Str) : Option Str :=
  if dotdot <:+: p then do
    let cur ← (comps p).foldlM (dotdotStep phys) []
    some (if cur = [] then slash else cur)
  else some (normalizePath p)

/-- `physical_if_symlink` with 41 less its depth as fuel: empty if `abs` is not a link. -/
def physicalIfSymlink (w : World) : Nat → Str → Option Str
  | 0, _ => some []
  | fuel + 1, abs =>
    let lc := (classify abs false false .copyLeaf w).1
    if lc.realm ≠ .hostBacked ∨ lc.hostPath = [] then some []
    else
      match w.host.readlink lc.hostPath with
      | .error _ => some []
      | .ok t =>
        if t = [] then some []
        else do
          let next ← resolveDotdotWith (physicalIfSymlink w fuel)
            (if isAbs t then t else dirOf abs ++ '/' :: t)
          let deeper ← physicalIfSymlink w fuel next
          some (if deeper = [] then next else deeper)

def resolveDotdot (w : World) (p : Str) : Option Str := resolveDotdotWith (physicalIfSymlink w 41) p

/-- An empty `dirPath` stands for the current directory. -/
def absolutize (w : World) (path dirPath : Str) : Option Str :=
  if isAbs path then resolveDotdot w path
  else
    let base := if dirPath = [] then w.cwd else dirPath
    let base := if base = [] then slash else base
    let base := if base.getLast? = some '/' then base else base ++ slash
    resolveDotdot w (base ++ path)

/-! ## The result is a normal path -/

section Normal

variable {phys : Str → Option Str}

/-- A physical path is empty or normal. -/
def PhysNormal (phys : Str → Option Str) : Prop := ∀ p t, phys p = some t → t = [] ∨ Normal t

/-- The loop's `cur`: components written out, without the root's slash. -/
def Rendered (s : Str) : Prop := ∃ cs, (∀ c ∈ cs, IsName c) ∧ s = render cs

theorem Rendered.of_normal {p : Str} (hp : Normal p) (hs : p ≠ slash) : Rendered p := by
  obtain ⟨cs, hcs, rfl⟩ := hp
  refine ⟨cs, hcs, absPath_of_ne_nil ?_⟩
  rintro rfl
  exact hs rfl

theorem Rendered.dirOf {s : Str} (hs : Rendered s) (h0 : s ≠ []) : Rendered (dirOf s) := by
  obtain ⟨cs, hcs, rfl⟩ := hs
  obtain rfl | ⟨ds, c, rfl⟩ := List.eq_nil_or_concat cs
  · exact absurd rfl h0
  · rw [List.concat_eq_append] at *
    rw [render_snoc, dirOf_append _ (hcs c (by simp)).2.1]
    exact ⟨ds, fun d hd => hcs d (by simp [hd]), rfl⟩

theorem dotdotStep_rendered (hphys : PhysNormal phys) {cur c s : Str} (hcur : Rendered cur)
    (hc : c ≠ [] ∧ '/' ∉ c) (hs : dotdotStep phys cur c = some s) : Rendered s := by
  unfold dotdotStep at hs
  split_ifs at hs with h1 h2 h3
  · cases hs; exact hcur
  · cases hs
    obtain ⟨cs, hcs, rfl⟩ := hcur
    refine ⟨cs ++ [c], fun d hd => ?_, (render_snoc cs c).symm⟩
    rcases List.mem_append.1 hd with hd | hd
    · exact hcs d hd
    · rw [List.mem_singleton.1 hd]
      exact ⟨hc.1, hc.2, h1, h2⟩
  · cases hs; exact hcur
  · obtain ⟨t, ht, hs⟩ := bind_eq_some_iff.1 hs
    by_cases h4 : t = []
    · rw [if_pos h4, if_neg h3] at hs
      cases hs
      exact hcur.dirOf h3
    · rw [if_neg h4] at hs
      by_cases h5 : t = slash
      · simp [h5] at hs
      · rw [if_neg h5, if_neg h4] at hs
        cases hs
        exact (Rendered.of_normal ((hphys cur t ht).resolve_left h4) h5).dirOf h4

theorem foldlM_rendered (hphys : PhysNormal phys) {cs : List Str} (hcs : ∀ c ∈ cs, c ≠ [] ∧ '/' ∉ c)
    {cur s : Str} (hcur : Rendered cur)
    (hs : cs.foldlM (dotdotStep phys) cur = some s) : Rendered s := by
  induction cs generalizing cur with
  | nil =>
    simp only [List.foldlM_nil, pure, Option.some.injEq] at hs
    exact hs ▸ hcur
  | cons c cs ih =>
    rw [List.foldlM_cons] at hs
    obtain ⟨cur', h1, h2⟩ := bind_eq_some_iff.1 hs
    have hcur' := dotdotStep_rendered hphys hcur (hcs c (by simp)) h1
    exact ih (fun d hd => hcs d (.tail _ hd)) hcur' h2

theorem resolveDotdotWith_normal (hphys : PhysNormal phys) {p s : Str}
    (hs : resolveDotdotWith phys p = some s) : Normal s := by
  unfold resolveDotdotWith at hs
  split_ifs at hs
  · obtain ⟨cur, h1, h2⟩ := bind_eq_some_iff.1 hs
    obtain ⟨cs, hcs, rfl⟩ := foldlM_rendered hphys
      (fun c hc => ⟨ne_nil_of_mem_comps hc, noSlash_of_mem_comps hc⟩) ⟨[], by simp, rfl⟩ h1
    cases h2
    split_ifs with h0
    · exact ⟨[], by simp, rfl⟩
    · refine ⟨cs, hcs, (absPath_of_ne_nil ?_).symm⟩
      rintro rfl
      exact h0 rfl
  · cases hs
    exact normalizePath_normal p

theorem physicalIfSymlink_normal (w : World) (fuel : Nat) :
    PhysNormal (physicalIfSymlink w fuel) := by
  induction fuel with
  | zero =>
    intro p t ht
    cases ht
    exact .inl rfl
  | succ fuel ih =>
    intro p t ht
    rw [physicalIfSymlink] at ht
    split_ifs at ht
    · cases ht; exact .inl rfl
    · split at ht
      · cases ht; exact .inl rfl
      · split at ht
        · cases ht; exact .inl rfl
        · obtain ⟨next, h1, h2⟩ := bind_eq_some_iff.1 ht
          obtain ⟨deeper, h3, h4⟩ := bind_eq_some_iff.1 h2
          cases h4
          split_ifs with h0
          · exact .inr (resolveDotdotWith_normal ih h1)
          · exact ih next deeper h3

theorem absolutize_normal {w : World} {path dirPath s : Str}
    (hs : absolutize w path dirPath = some s) : Normal s := by
  unfold absolutize at hs
  split_ifs at hs <;> exact resolveDotdotWith_normal (physicalIfSymlink_normal w 41) hs

end Normal

end Linuxity.Kernel
