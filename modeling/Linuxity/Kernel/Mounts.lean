import Linuxity.Wire.Path
import Linuxity.Posix.Walk

/-!
# Kernel.Mounts — the mount table (`kernel/file_namespace.hpp`)

A guest path is served by the mount with the longest matching prefix: a host directory, a host
directory with a writable upper stacked over it, or a producer of virtual files.  The host path
of a guest path is one of the mount's two base directories joined with the rest of the path.
-/

namespace Linuxity.Kernel

open Posix Wire List

inductive DType where
  | regular | dir | symlink
  deriving DecidableEq

structure VirtualDirent where
  name : Str
  type : DType := .regular
  ino : Nat := 0
  deriving DecidableEq

structure VirtualFile where
  bytes : Str := []
  isDir : Bool := false
  entries : List VirtualDirent := []
  redirectHost : Str := []
  symlinkTarget : Str := []
  deriving DecidableEq

abbrev Producer := Str → Except Errno VirtualFile

/-- An entry of the mount table.  The host directories are absolute and normal, as `mount_host`
makes them. -/
structure Mount where
  pre : Str
  hostBase : Str
  upper : Str
  producer : Option Producer
  base_normal : producer = none → Normal hostBase
  upper_normal : upper = [] ∨ Normal upper

def slash : Str := ['/']

def dropTrailing (p : Str) : Str := if 1 < p.length ∧ p.getLast? = some '/' then p.dropLast else p

def absoluteHost (hostCwd p : Str) : Str :=
  if isAbs p then normalizePath p
  else normalizePath ((if hostCwd = [] then slash else hostCwd) ++ '/' :: p)

theorem absoluteHost_normal (hostCwd p : Str) : Normal (absoluteHost hostCwd p) := by
  unfold absoluteHost
  split_ifs <;> exact normalizePath_normal _

theorem slash_ne_nil : slash ≠ [] := by decide

/-- `mount_host`; no caller mounts an empty directory name. -/
def mountHost (hostCwd pre hostBase upper : Str) (_ : hostBase ≠ []) : Mount where
  pre := dropTrailing pre
  hostBase := absoluteHost hostCwd hostBase
  upper := if upper = [] then [] else absoluteHost hostCwd upper
  producer := none
  base_normal := fun _ => absoluteHost_normal hostCwd hostBase
  upper_normal := by
    split_ifs
    · exact .inl rfl
    · exact .inr (absoluteHost_normal hostCwd upper)

def mountVirtual (pre : Str) (prod : Producer) : Mount where
  pre := dropTrailing pre
  hostBase := []
  upper := []
  producer := some prod
  base_normal := by simp
  upper_normal := .inl rfl

def Mount.covers (m : Mount) (abs : Str) : Bool :=
  m.pre == slash ||
    (m.pre.isPrefixOf abs && (abs.length == m.pre.length || abs[m.pre.length]? == some '/'))

def bestLen (best : Option Mount) : Nat := (best.map (·.pre.length)).getD 0

/-- One step of the scan in `deepest`: a prefix at least as long as the best one so far wins. -/
def deepestStep (takes : Mount → Bool) (best : Option Mount) (m : Mount) : Option Mount :=
  if takes m ∧ bestLen best ≤ m.pre.length then some m else best

def deepest (mounts : List Mount) (abs : Str) : Option Mount :=
  mounts.foldl (deepestStep (·.covers abs)) none

def hostMounts (mounts : List Mount) : List Mount := mounts.filter (·.producer.isNone)

def joinHost (base rel : Str) : Str :=
  if rel = [] then base
  else (if base ≠ [] ∧ base.getLast? ≠ some '/' then base ++ slash else base) ++ rel

def Mount.rel (m : Mount) (abs : Str) : Str :=
  (abs.drop (if m.pre = slash then 0 else m.pre.length)).dropWhile (· == '/')

def Mount.up (m : Mount) (abs : Str) : Str := joinHost m.upper (m.rel abs)

def Mount.lo (m : Mount) (abs : Str) : Str := joinHost m.hostBase (m.rel abs)

/-! ## The deepest mount -/

theorem deepest_concat (ms : List Mount) (m : Mount) (abs : Str) :
    deepest (ms ++ [m]) abs = deepestStep (·.covers abs) (deepest ms abs) m := by
  simp [deepest]

variable {abs b : Str} {m : Mount} {ms : List Mount} {cs : List Str}

theorem deepest_mem (h : deepest ms abs = some m) : m ∈ ms ∧ m.covers abs := by
  induction ms using List.reverseRecOn with
  | nil => simp [deepest] at h
  | append_singleton ms m' ih =>
    rw [deepest_concat, deepestStep] at h
    split_ifs at h with hc
    · cases h
      exact ⟨by simp, hc.1⟩
    · obtain ⟨h1, h2⟩ := ih h
      exact ⟨mem_append_left _ h1, h2⟩

theorem deepest_root (hm : m.pre = slash) (abs : Str) : deepest [m] abs = some m := by
  simp [deepest, deepestStep, Mount.covers, hm, bestLen]

section Narrow

variable {P Q : Mount → Bool}

theorem bestLen_le_step (best : Option Mount) (m : Mount) :
    bestLen best ≤ bestLen (deepestStep P best m) := by
  unfold deepestStep
  split_ifs with h
  · simpa [bestLen] using h.2
  · exact le_rfl

theorem bestLen_narrow {ms : List Mount} (hQ : ∀ m ∈ ms, Q m → P m) :
    bestLen (ms.foldl (deepestStep Q) none) ≤ bestLen (ms.foldl (deepestStep P) none) := by
  induction ms using List.reverseRecOn with
  | nil => simp
  | append_singleton ms m ih =>
    rw [foldl_append, foldl_append]
    have hle := ih fun m' hm' => hQ m' (mem_append_left _ hm')
    have hstep := bestLen_le_step (P := P) (ms.foldl (deepestStep P) none) m
    simp only [foldl_cons, foldl_nil] at *
    by_cases hq : Q m ∧ bestLen (ms.foldl (deepestStep Q) none) ≤ m.pre.length
    · have hp := hQ m (by simp) hq.1
      rw [deepestStep, if_pos hq]
      by_cases hlen : bestLen (ms.foldl (deepestStep P) none) ≤ m.pre.length
      · rw [deepestStep, if_pos ⟨hp, hlen⟩]
      · have : bestLen (some m) = m.pre.length := rfl
        omega
    · rw [deepestStep, if_neg hq]
      omega

/-- Fewer candidates that still include the winner do not change the winner. -/
theorem deepest_narrow {ms : List Mount} {m : Mount} (hQ : ∀ m' ∈ ms, Q m' → P m')
    (hm : ms.foldl (deepestStep P) none = some m) (hq : Q m) :
    ms.foldl (deepestStep Q) none = some m := by
  induction ms using List.reverseRecOn with
  | nil => simp at hm
  | append_singleton ms m' ih =>
    have hQ' : ∀ x ∈ ms, Q x → P x := fun x hx => hQ x (mem_append_left _ hx)
    rw [foldl_append] at hm ⊢
    have hle := bestLen_narrow hQ'
    simp only [foldl_cons, foldl_nil] at *
    rw [deepestStep] at hm ⊢
    split_ifs at hm with hp
    · cases hm
      rw [if_pos ⟨hq, hle.trans hp.2⟩]
    · rw [ih hQ' hm, if_neg]
      rintro ⟨h1, h2⟩
      exact hp ⟨hQ m' (by simp) h1, by rw [hm]; exact h2⟩

end Narrow

/-- A path served by a host mount is served by it without the virtual mounts too. -/
theorem deepest_hostMounts (h : deepest ms abs = some m)
    (hm : m.producer = none) : deepest (hostMounts ms) abs = some m := by
  have hfilter : deepest (hostMounts ms) abs =
      ms.foldl (deepestStep fun m => m.producer.isNone && m.covers abs) none := by
    rw [deepest, hostMounts, foldl_filter]
    congr 1
    funext best m
    by_cases h1 : m.producer.isNone <;> simp [deepestStep, h1]
  rw [hfilter]
  exact deepest_narrow (fun _ _ h => (Bool.and_eq_true _ _ ▸ h).2) h
    (by simp [hm, (deepest_mem h).2])

/-- Two answers with the same prefix are the same entry: of entries with equal prefixes the last
one is always taken. -/
theorem deepest_eq_of_pre_eq {a : Str} {m' : Mount}
    (ha : deepest ms a = some m) (hb : deepest ms b = some m') (hp : m.pre = m'.pre) : m = m' := by
  induction ms using List.reverseRecOn with
  | nil => simp [deepest] at ha
  | append_singleton ms n ih =>
    rw [deepest_concat, deepestStep] at ha hb
    have hcov : ∀ x y : Mount, x.pre = y.pre → ∀ s, x.covers s = y.covers s := by
      intro x y hxy s
      simp [Mount.covers, hxy]
    split_ifs at ha hb with h1 h2 h2
    · cases ha; cases hb; rfl
    · -- `b`'s answer is older, but `n` has its prefix and covers `b` as well
      cases ha
      exfalso
      apply h2
      have := (deepest_mem hb).2
      simp [hcov m m' hp, this, hb, hp, bestLen]
    · cases hb
      exfalso
      apply h1
      have := (deepest_mem ha).2
      simp [← hcov m m' hp, this, ha, hp, bestLen]
    · exact ih ha hb

theorem deepest_of_map_pre {a : Str} (ha : deepest ms a = some m)
    (hb : ¬ (deepest ms b).map (·.pre) ≠ some m.pre) : deepest ms b = some m := by
  cases hd : deepest ms b with
  | none => simp [hd] at hb
  | some m' =>
    have hp : m.pre = m'.pre := by simpa [hd] using (not_not.1 hb).symm
    rw [deepest_eq_of_pre_eq ha hd hp]

/-! ## Host paths of normal guest paths -/

theorem dropWhile_render (h : ∀ c ∈ cs, IsName c) :
    (render cs).dropWhile (· == '/') = (render cs).tail := by
  cases cs with
  | nil => rfl
  | cons c cs =>
    have hc := h c (by simp)
    cases c with
    | nil => exact absurd rfl hc.1
    | cons x c =>
      have hx : x ≠ '/' := fun hx => hc.2.1 (by simp [hx])
      simp [hx]

/-- On normal paths a mount covers what lies at or below its prefix, component by component. -/
theorem Mount.covers_absPath (hcs : ∀ c ∈ cs, IsName c) :
    m.covers (absPath cs) ↔ m.pre = slash ∨ ∃ cs1 cs2, cs = cs1 ++ cs2 ∧ m.pre = render cs1 := by
  by_cases hp : m.pre = slash
  · simp [Mount.covers, hp]
  simp only [Mount.covers, beq_iff_eq, hp, Bool.or_eq_true, false_or, Bool.and_eq_true,
    isPrefixOf_iff_prefix]
  constructor
  · rintro ⟨⟨rest, hrest⟩, hend⟩
    have hrest' : rest = [] ∨ rest.head? = some '/' := by
      rw [← hrest] at hend
      rcases hend with hend | hend
      · left; simpa using hend
      · right; simpa [List.getElem?_append, List.head?_eq_getElem?] using hend
    by_cases h0 : cs = []
    · subst h0
      -- only the empty prefix covers the root without being it
      refine ⟨[], [], rfl, ?_⟩
      cases hm : m.pre with
      | nil => rfl
      | cons x xs =>
        rw [hm] at hrest
        simp only [absPath_nil, cons_append, List.cons.injEq, append_eq_nil_iff] at hrest
        exact absurd (by rw [hm, hrest.1, hrest.2.1]; rfl) hp
    · rw [absPath_of_ne_nil h0] at hrest
      obtain ⟨cs1, cs2, h1, h2, _⟩ :=
        render_eq_append (fun c hc => (hcs c hc).2.1) hrest' hrest.symm
      exact ⟨cs1, cs2, h1, h2⟩
  · rintro ⟨cs1, cs2, rfl, hpre⟩
    rw [hpre]
    by_cases h0 : cs1 ++ cs2 = []
    · obtain ⟨rfl, rfl⟩ := append_eq_nil_iff.1 h0
      simp
    · rw [absPath_of_ne_nil h0, render_append]
      refine ⟨prefix_append _ _, ?_⟩
      cases cs2 with
      | nil => left; simp
      | cons c cs2 => right; simp

theorem Mount.rel_eq (hn : Normal abs) (hc : m.covers abs) :
    ∃ rs, (∀ c ∈ rs, IsName c) ∧ comps abs = comps m.pre ++ rs ∧ m.rel abs = (render rs).tail := by
  obtain ⟨cs, hcs, rfl⟩ := hn
  rw [comps_absPath hcs]
  unfold Mount.rel
  rcases (Mount.covers_absPath hcs).1 hc with hp | ⟨cs1, cs2, rfl, hp⟩
  · refine ⟨cs, hcs, by simp [hp, slash], ?_⟩
    rw [if_pos hp, drop_zero]
    by_cases h0 : cs = []
    · subst h0; rfl
    · rw [absPath_of_ne_nil h0, dropWhile_render hcs]
  · have hcs2 : ∀ c ∈ cs2, IsName c := fun c hc => hcs c (by simp [hc])
    refine ⟨cs2, hcs2, ?_, ?_⟩
    · rw [hp, comps_render fun c hc => (hcs c (by simp [hc])).ne_nil_noSlash]
    · by_cases h0 : cs1 ++ cs2 = []
      · obtain ⟨rfl, rfl⟩ := append_eq_nil_iff.1 h0
        simp [hp, slash]
      · have hne : m.pre ≠ slash := by
          intro h
          rw [hp] at h
          cases cs1 with
          | nil => simp [slash] at h
          | cons c cs1 =>
            simp only [render_cons, slash, List.cons.injEq, append_eq_nil_iff] at h
            exact (hcs c (by simp)).1 h.2.1
        rw [if_neg hne, hp, absPath_of_ne_nil h0, render_append, drop_left, dropWhile_render hcs2]

theorem getLast?_absPath (h : ∀ c ∈ cs, IsName c) (h0 : cs ≠ []) :
    (absPath cs).getLast? ≠ some '/' := by
  intro hl
  have hs := Host.steps_absPath h
  rw [steps, comps_absPath h, if_pos ⟨hl, h0⟩] at hs
  simp at hs

theorem joinHost_absPath {bs rs : List Str} (hbs : ∀ c ∈ bs, IsName c) (hrs : ∀ c ∈ rs, IsName c) :
    joinHost (absPath bs) (render rs).tail = absPath (bs ++ rs) := by
  unfold joinHost
  cases rs with
  | nil => simp
  | cons r rs =>
    have ht : (render (r :: rs)).tail ≠ [] := by simp [(hrs r (by simp)).1]
    rw [if_neg ht, absPath_of_ne_nil (by simp : bs ++ r :: rs ≠ [])]
    by_cases hb : bs = []
    · subst hb
      simp
    · rw [if_pos ⟨absPath_ne_nil bs, getLast?_absPath hbs hb⟩, absPath_of_ne_nil hb, render_append]
      simp [slash]

/-- A host path is the base directory's components followed by those below the prefix. -/
theorem Mount.joinHost_split (hn : Normal abs) (hc : m.covers abs) {rs : List Str}
    (hrs : comps abs = comps m.pre ++ rs) (hb : Normal b) :
    joinHost b (m.rel abs) = absPath (comps b ++ rs) := by
  obtain ⟨rs', hrs', h1, h2⟩ := Mount.rel_eq hn hc
  obtain rfl : rs = rs' := append_cancel_left (hrs.symm.trans h1)
  rw [h2, ← joinHost_absPath (fun c hc => hb.isName hc) hrs', hb.absPath_comps]

/-- Between its prefix and a path it serves, a mount serves every directory. -/
theorem deepest_ancestor (hn : Normal abs) (hd : deepest ms abs = some m) {rs1 rs2 : List Str}
    (hrs : comps abs = comps m.pre ++ (rs1 ++ rs2)) :
    deepest ms (absPath (comps m.pre ++ rs1)) = some m := by
  have hnames : ∀ c ∈ comps m.pre ++ (rs1 ++ rs2), IsName c := hrs ▸ fun _ hc => hn.isName hc
  have hnames1 : ∀ c ∈ comps m.pre ++ rs1, IsName c := by
    intro c hc
    apply hnames c
    rcases mem_append.1 hc with hc | hc <;> simp [hc]
  have habs : abs = absPath (comps m.pre ++ (rs1 ++ rs2)) := by rw [← hrs, hn.absPath_comps]
  have hcov := (deepest_mem hd).2
  refine deepest_narrow (fun m' _ hm' => ?_) hd ?_
  · rw [habs]
    rcases (Mount.covers_absPath hnames1).1 hm' with hp | ⟨cs1, cs2, h1, h2⟩
    · exact (Mount.covers_absPath hnames).2 (.inl hp)
    · refine (Mount.covers_absPath hnames).2 (.inr ⟨cs1, cs2 ++ rs2, ?_, h2⟩)
      rw [← append_assoc, h1, append_assoc]
  · rw [habs] at hcov
    rcases (Mount.covers_absPath hnames).1 hcov with hp | ⟨cs1, cs2, h1, h2⟩
    · exact (Mount.covers_absPath hnames1).2 (.inl hp)
    · refine (Mount.covers_absPath hnames1).2 (.inr ⟨cs1, rs1, ?_, h2⟩)
      have hcs1 : ∀ c ∈ cs1, c ≠ [] ∧ '/' ∉ c := by
        intro c hc
        exact (hnames c (by rw [h1]; simp [hc])).ne_nil_noSlash
      rw [h2, comps_render hcs1]

/-! ## Upper paths -/

theorem Mount.up_eq {g : Str} (hg : Normal g) (hc : m.covers g) (hu : m.upper ≠ []) :
    ∃ rs, comps g = comps m.pre ++ rs ∧ (∀ c ∈ comps m.upper ++ rs, IsName c) ∧
      m.up g = absPath (comps m.upper ++ rs) := by
  have hun := m.upper_normal.resolve_left hu
  obtain ⟨rs, hrs, hcg, _⟩ := Mount.rel_eq hg hc
  exact ⟨rs, hcg, forall_mem_append.2 ⟨fun _ => hun.isName, hrs⟩,
    Mount.joinHost_split hg hc hcg hun⟩

theorem Mount.up_normal {g : Str} (hg : Normal g) (hc : m.covers g) (hu : m.upper ≠ []) :
    Normal (m.up g) := by
  obtain ⟨rs, _, hnames, hup⟩ := Mount.up_eq hg hc hu
  exact hup ▸ normal_absPath hnames

/-! ## Paths below a directory -/

section Below

variable {B B' r r' : Str}

theorem joinHost_ne_nil {b : Str} (hb : b ≠ []) (rel : Str) : joinHost b rel ≠ [] := by
  unfold joinHost
  split_ifs <;> simp [hb]

/-- One path, named from a directory and from one below it. -/
def Deeper (B r B' r' : Str) : Prop := ∃ x, x ≠ [] ∧ B' = joinHost B x ∧ r = joinHost x r'

theorem joinHost_nil (B : Str) : joinHost B [] = B := if_pos rfl

/-- The directory with the slash that separates it from what is below. -/
def withSlash (B : Str) : Str := if B.getLast? = some '/' then B else B ++ slash

theorem joinHost_of_ne (hB : B ≠ []) (hr : r ≠ []) :
    joinHost B r = withSlash B ++ r := by
  unfold joinHost withSlash
  rw [if_neg hr]
  split_ifs <;> simp_all

theorem normal_getLast (hB : Normal B) : B.getLast? = some '/' ↔ B = slash := by
  obtain ⟨cs, hcs, rfl⟩ := hB
  rcases List.eq_nil_or_concat cs with rfl | ⟨ds, c, rfl⟩
  · simp [slash]
  · have hc := hcs c (by simp)
    have hne : absPath (ds.concat c) = render ds ++ '/' :: c := by
      rw [absPath_of_ne_nil (by simp), List.concat_eq_append, render_snoc]
    rw [hne]
    refine iff_of_false (fun h => ?_) fun h => ?_
    · rw [List.getLast?_append_of_ne_nil _ (List.cons_ne_nil _ _),
        List.getLast?_cons_of_ne_nil hc.1] at h
      exact hc.2.1 (List.mem_of_getLast? h)
    · have hlen := congrArg List.length h
      have hpos := List.length_pos_of_ne_nil hc.1
      simp only [List.length_append, List.length_cons, slash] at hlen
      simp at hlen
      omega

theorem joinHost_getLast {x : Str} (hB : B ≠ []) (hx : x ≠ []) :
    (joinHost B x).getLast? = x.getLast? := by
  rw [joinHost_of_ne hB hx, List.getLast?_append_of_ne_nil _ hx]

theorem joinHost_joinHost {x : Str} (hB : B ≠ []) (hx : x ≠ []) (r : Str) :
    joinHost (joinHost B x) r = joinHost B (joinHost x r) := by
  by_cases hr : r = []
  · rw [hr, joinHost_nil, joinHost_nil]
  have hBx : joinHost B x ≠ [] := joinHost_ne_nil hB x
  have hxr : joinHost x r ≠ [] := joinHost_ne_nil hx r
  rw [joinHost_of_ne hBx hr, joinHost_of_ne hB hxr, joinHost_of_ne hx hr]
  unfold withSlash
  rw [joinHost_getLast hB hx, joinHost_of_ne hB hx]
  unfold withSlash
  split_ifs <;> simp

theorem withSlash_last (B : Str) : (withSlash B).getLast? = some '/' := by
  unfold withSlash
  split_ifs with h
  · exact h
  · simp [slash]

theorem withSlash_normal (hB : Normal B) :
    withSlash B = if B = slash then slash else B ++ slash := by
  unfold withSlash
  simp only [normal_getLast hB]
  split_ifs with h
  · exact h
  · rfl

theorem withSlash_injective (hB : Normal B) (hB' : Normal B') (h : withSlash B = withSlash B') :
    B = B' := by
  rw [withSlash_normal hB, withSlash_normal hB'] at h
  have hl := congrArg List.length h
  have := List.length_pos_of_ne_nil hB.ne_nil
  have := List.length_pos_of_ne_nil hB'.ne_nil
  split_ifs at h hl with h1 h2 h2
  · rw [h1, h2]
  · rw [List.length_append] at hl
    omega
  · rw [List.length_append] at hl
    omega
  · exact List.append_cancel_right h

theorem deeper_of_cut (hB : Normal B) (hB' : Normal B') {t : Str}
    (h : withSlash B' = withSlash B ++ t) (hr : r = t ++ r') (hr' : r' ≠ []) :
    B = B' ∧ r = r' ∨ Deeper B r B' r' := by
  obtain rfl | ⟨x, e, rfl⟩ := List.eq_nil_or_concat t
  · rw [List.append_nil] at h
    exact .inl ⟨(withSlash_injective hB' hB h).symm, hr⟩
  rw [List.concat_eq_append] at h hr
  have he := withSlash_last B'
  rw [h, ← List.append_assoc, List.getLast?_concat] at he
  cases he
  have hne : B' ≠ slash := by
    rintro rfl
    have hl := congrArg List.length h
    have hpos : 0 < (withSlash B).length :=
      List.length_pos_of_ne_nil fun h0 => by simpa [h0] using withSlash_last B
    rw [withSlash_normal hB', if_pos rfl, List.length_append, List.length_append] at hl
    change 1 = _ + (_ + 1) at hl
    omega
  rw [withSlash_normal hB', if_neg hne, ← List.append_assoc] at h
  have h : B' = withSlash B ++ x := List.append_cancel_right h
  have hx : x ≠ [] := by
    rintro rfl
    have hlast := withSlash_last B
    rw [List.append_nil] at h
    rw [← h, normal_getLast hB'] at hlast
    exact hne hlast
  have hxl : x.getLast? ≠ some '/' := by
    rw [← List.getLast?_append_of_ne_nil (withSlash B) hx, ← h]
    exact fun h => hne ((normal_getLast hB').1 h)
  refine .inr ⟨x, hx, ?_, ?_⟩
  · rw [h, joinHost_of_ne hB.ne_nil hx]
  · rw [hr, joinHost_of_ne hx hr', withSlash, if_neg hxl]
    rfl

/-- A path below a directory tells the directory and the rest, up to where the cut is made. -/
theorem joinHost_eq_iff (hB : Normal B) (hB' : Normal B') :
    joinHost B r = joinHost B' r' ↔ B = B' ∧ r = r' ∨ Deeper B r B' r' ∨ Deeper B' r' B r := by
  constructor
  · intro h
    by_cases hr : r = []
    · rw [hr, joinHost_nil] at h
      by_cases hr' : r' = []
      · rw [hr', joinHost_nil] at h
        exact .inl ⟨h, by rw [hr, hr']⟩
      · exact .inr (.inr ⟨r', hr', h, by rw [hr, joinHost_nil]⟩)
    by_cases hr' : r' = []
    · rw [hr', joinHost_nil] at h
      exact .inr (.inl ⟨r, hr, h.symm, by rw [hr', joinHost_nil]⟩)
    rw [joinHost_of_ne hB.ne_nil hr, joinHost_of_ne hB'.ne_nil hr'] at h
    rcases List.append_eq_append_iff.1 h with ⟨t, h1, h2⟩ | ⟨t, h1, h2⟩
    · exact (deeper_of_cut hB hB' h1 h2 hr').imp_right .inl
    · exact (deeper_of_cut hB' hB h1 h2 hr).imp (fun h => ⟨h.1.symm, h.2.symm⟩) .inr
  · rintro (⟨rfl, rfl⟩ | ⟨x, hx, rfl, rfl⟩ | ⟨x, hx, rfl, rfl⟩)
    · rfl
    · exact (joinHost_joinHost hB.ne_nil hx r').symm
    · exact joinHost_joinHost hB'.ne_nil hx r

end Below

end Linuxity.Kernel
