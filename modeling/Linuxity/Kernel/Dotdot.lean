import Linuxity.Kernel.Merged
import Linuxity.Wire.Scan

/-!
# Kernel.Dotdot — normalization by text and by components (`kernel/file_namespace.hpp`)

`resolve_dotdot` is a second scan, which asks about links before it cuts a component off.  Where it
meets no link it gives what `normalize_path` gives, and both give the component stack of the path.
-/

namespace Linuxity.Kernel

open Posix Wire List

/-! ## What normalization is for -/

variable {phys : Str → Option Str} (cs : List Str)

/-- The components that are kept: each `..` takes away the last one so far. -/
def componentStack : List Str :=
  (cs.filter fun c => c ≠ [] ∧ c ≠ dot).foldl
    (fun kept c => if c = dotdot then kept.dropLast else kept ++ [c]) []

def joined : Str := '/' :: List.intercalate ['/'] cs

def GuestLink (w : World) (abs : Str) : Prop :=
  let lc := (classify abs false false .copyLeaf w).1
  lc.realm = .hostBacked ∧ lc.hostPath ≠ [] ∧ ∃ t, w.host.readlink lc.hostPath = .ok t

/-- `resolve_dotdot`, by the scan it is written with. -/
def resolveDotdotText (w : World) (p : Str) : Option Str :=
  if dotdot <:+: p then do
    let cur ← scan (fun cur c => cur.bind (dotdotStep (physicalIfSymlink w 41) · c)) p.length p
      (some [])
    some (if cur = [] then slash else cur)
  else some (normalizeText p)

/-! ## Components -/

theorem joined_eq : joined cs = absPath cs := by
  unfold joined absPath
  induction cs with
  | nil => rfl
  | cons c cs ih =>
    rw [if_neg (cons_ne_nil _ _), render_cons]
    rcases cs with _ | ⟨d, cs⟩
    · simp [List.intercalate]
    · rw [if_neg (cons_ne_nil _ _)] at ih
      rw [← ih]
      simp [List.intercalate]

theorem componentStack_eq : componentStack cs = (cs.filter (· ≠ [])).foldl normalizeStep [] := by
  suffices h : ∀ kept, (cs.filter fun c => c ≠ [] ∧ c ≠ dot).foldl
      (fun kept c => if c = dotdot then kept.dropLast else kept ++ [c]) kept =
        (cs.filter (· ≠ [])).foldl normalizeStep kept from
    h []
  induction cs with
  | nil => exact fun kept => rfl
  | cons c cs ih =>
    intro kept
    by_cases h0 : c = []
    · simpa [h0] using ih kept
    · by_cases h1 : c = dot
      · subst h1
        simpa [normalizeStep, dot] using ih kept
      · rw [filter_cons_of_pos (by simp [h0, h1]), filter_cons_of_pos (by simp [h0]), foldl_cons,
          foldl_cons, ih]
        simp [normalizeStep, h1]

/-! ## The scan of `resolve_dotdot` -/

theorem foldl_bind_eq_foldlM {α β : Type} (f : β → α → Option β) (as : List α) (b : Option β) :
    as.foldl (fun b a => b.bind (f · a)) b = b.bind (as.foldlM f ·) := by
  induction as generalizing b with
  | nil => cases b <;> rfl
  | cons a as ih =>
    rw [foldl_cons, ih]
    cases b with
    | none => rfl
    | some b => simp [foldlM_cons]

theorem resolveDotdotText_eq (w : World) (p : Str) : resolveDotdotText w p = resolveDotdot w p := by
  unfold resolveDotdotText resolveDotdot resolveDotdotWith
  rw [scan_eq _ le_rfl, foldl_bind_eq_foldlM, normalizeText_eq]
  rfl

theorem physicalIfSymlink_of_not_link {w : World} {abs : Str} (hl : ¬GuestLink w abs) (fuel : Nat) :
    physicalIfSymlink w (fuel + 1) abs = some [] := by
  rw [physicalIfSymlink]
  split_ifs with hc
  · rfl
  · rcases hr : w.host.readlink (classify abs false false .copyLeaf w).1.hostPath with e | t
    · rfl
    · rw [not_or, not_not] at hc
      exact absurd ⟨hc.1, hc.2, t, hr⟩ hl

/-- The scan at one component, where no link is met: the component stack, written out. -/
theorem dotdotStep_render {cs : List Str} (hcs : ∀ c ∈ cs, IsName c) {c : Str}
    (hphys : c = dotdot → cs ≠ [] → phys (render cs) = some []) :
    dotdotStep phys (render cs) c = some (render (normalizeStep cs c)) := by
  unfold dotdotStep normalizeStep
  by_cases h1 : c = dot
  · rw [if_pos h1, if_pos h1]
  rw [if_neg h1, if_neg h1]
  by_cases h2 : c = dotdot
  · rw [if_neg (not_not.2 h2), if_pos h2]
    obtain rfl | ⟨ds, d, rfl⟩ := eq_nil_or_concat cs
    · rfl
    · rw [concat_eq_append] at *
      have hne : render (ds ++ [d]) ≠ [] := by simp [render_snoc]
      rw [if_neg hne, hphys h2 (by simp), Option.bind_eq_bind, Option.bind_some]
      rw [if_pos rfl, if_neg hne, render_snoc, dirOf_append _ (hcs d (by simp)).2.1,
        dropLast_concat]
  · rw [if_pos h2, if_neg h2, render_snoc]

theorem foldlM_render {kept cs : List Str} (hkept : ∀ c ∈ kept, IsName c)
    (hcs : ∀ c ∈ cs, c ≠ [] ∧ '/' ∉ c)
    (hphys : ∀ as bs, cs = as ++ dotdot :: bs → as.foldl normalizeStep kept ≠ [] →
        phys (render (as.foldl normalizeStep kept)) = some []) :
    cs.foldlM (dotdotStep phys) (render kept) = some (render (cs.foldl normalizeStep kept)) := by
  induction cs generalizing kept with
  | nil => rfl
  | cons c cs ih =>
    have hstep : dotdotStep phys (render kept) c = some (render (normalizeStep kept c)) :=
      dotdotStep_render hkept fun hc h0 => hphys [] cs (by rw [hc]; rfl) h0
    rw [foldlM_cons, hstep, Option.bind_eq_bind, Option.bind_some, foldl_cons]
    refine ih (isName_normalizeStep hkept (hcs c (by simp)))
      (fun d hd => hcs d (mem_cons_of_mem _ hd)) ?_
    intro as bs hab h0
    exact hphys (c :: as) bs (by rw [hab]; rfl) h0

/-- Without links before a `..`, the scan that asks about links agrees with the one that does
not. -/
theorem resolveDotdotWith_eq {p : Str}
    (hphys : ∀ as bs, comps p = as ++ dotdot :: bs → as.foldl normalizeStep [] ≠ [] →
        phys (render (as.foldl normalizeStep [])) = some []) :
    resolveDotdotWith phys p = some (normalizePath p) := by
  unfold resolveDotdotWith
  split_ifs
  · have hfold := @foldlM_render phys [] (comps p) (by simp)
      (fun _ hc => ⟨ne_nil_of_mem_comps hc, noSlash_of_mem_comps hc⟩) hphys
    rw [render_nil] at hfold
    rw [hfold, Option.bind_eq_bind, Option.bind_some, normalizePath, absPath]
    rcases (comps p).foldl normalizeStep [] with _ | ⟨c, cs⟩
    · rfl
    · simp
  · rfl

/-- `normalize_path` gives the component stack of every path, which is absolute, has no `.`, `..` or
empty component and does not change again; and `resolve_dotdot` gives the same where no part of the
path before a `..` is a link. -/
theorem normalize_is_component_stack (p : Str) :
    normalizeText p = joined (componentStack (p.splitOn '/')) ∧ isAbs (normalizeText p) = true ∧
      (normalizeText p = slash ∨ ∀ c ∈ (normalizeText p).tail.splitOn '/', c ≠ [] ∧ c ≠ dot ∧
        c ≠ dotdot) ∧ normalizeText (normalizeText p) = normalizeText p ∧
      ∀ w : World, (∀ as bs, p.splitOn '/' = as ++ dotdot :: bs → componentStack as ≠ [] →
        ¬GuestLink w (joined (componentStack as))) →
      resolveDotdotText w p = some (normalizeText p) := by
  have hnormal := normalizePath_normal p
  simp only [normalizeText_eq, resolveDotdotText_eq]
  refine ⟨by rw [joined_eq, componentStack_eq]; rfl, isAbs_absPath _, ?_,
    normalizePath_eq_self_iff.2 hnormal, fun w hlinks => ?_⟩
  · obtain ⟨cs, hcs, he⟩ := hnormal
    rw [he]
    by_cases h0 : cs = []
    · exact .inl (by rw [h0]; rfl)
    · rw [← joined_eq, show (joined cs).tail.splitOn '/' = cs from
        splitOn_intercalate '/' (fun c hc => (hcs c hc).2.1) h0]
      exact .inr fun c hc => ⟨(hcs c hc).1, (hcs c hc).2.2⟩
  · refine resolveDotdotWith_eq fun as bs hab h0 => ?_
    -- a `..` among the components is one among the runs, with the same components before it
    obtain ⟨as', bs', hsplit, has, hbs⟩ := filter_eq_append_iff.1 hab
    obtain ⟨cs', ds', hds, hcs', -, -⟩ := filter_eq_cons_iff.1 hbs
    have hstack : componentStack (as' ++ cs') = as.foldl normalizeStep [] := by
      rw [componentStack_eq, filter_append, has, filter_eq_nil_iff.2 hcs', append_nil]
    have hl := hlinks (as' ++ cs') ds' (by rw [hsplit, hds, append_assoc]) (hstack ▸ h0)
    rw [hstack, joined_eq, absPath_of_ne_nil h0] at hl
    exact physicalIfSymlink_of_not_link hl 40

/-- `/d` is a directory, so its parent is the root. -/
theorem normalize_is_component_stack_dir :
    ¬GuestLink (layeredWorld ∅) "/d".toList ∧
      resolveDotdotText (layeredWorld ∅) "/d/.//../t".toList =
        some (normalizeText "/d/.//../t".toList) := by
  have hdir : ¬GuestLink (layeredWorld ∅) "/d" := by
    rintro ⟨-, -, t, ht⟩
    have hr :
      ((layeredWorld ∅).host.readlink
        (classify "/d" false false .copyLeaf (layeredWorld ∅)).1.hostPath).isOk = false := by
      decide +kernel
    rw [ht] at hr
    cases hr
  refine ⟨hdir, (normalize_is_component_stack _).2.2.2.2 _ fun as bs hab _ => ?_⟩
  have hsplit : "/d/.//../t".toList.splitOn '/' = [[], ['d'], ['.'], [], ['.', '.'], ['t']] := by
    decide
  rw [hsplit] at hab
  -- there is one `..`
  have has : as = [[], ['d'], ['.'], []] := by
    rcases as with _ | ⟨a, _ | ⟨b, _ | ⟨c, _ | ⟨d, _ | ⟨e, _ | ⟨f, as⟩⟩⟩⟩⟩⟩ <;>
      simp [dotdot] at hab ⊢
    exact ⟨hab.1, hab.2.1.symm, hab.2.2.1.symm, hab.2.2.2.1⟩
  rw [has]
  exact hdir

end Linuxity.Kernel
