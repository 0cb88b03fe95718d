import Linuxity.Abi.Task
import Mathlib.Data.List.MinMax

/-!
# Abi.Selection — which mount serves a path

`deepest` keeps the longest prefix by the length of its text, and `under_virtual_mount` asks for any
virtual prefix.  Both are compared with the choice by components.
-/

namespace Linuxity.Abi

open Posix Kernel List

variable {ms : List Mount} {m v : Mount} {abs p q : Str}

/-- The mount whose prefix is the longest, component by component; the last of those. -/
def selected (ms : List Mount) (abs : Str) : Option Mount :=
  (ms.filter fun m => comps m.pre <+: comps abs).reverse.argmax fun m => (comps m.pre).length

theorem length_lt_of_comps (hp : Normal p) (hq : Normal q) (h : comps p <+: comps q)
    (hlt : (comps p).length < (comps q).length) : p.length < q.length := by
  obtain ⟨cs, hcs, rfl⟩ := hp
  obtain ⟨ds, hds, rfl⟩ := hq
  rw [comps_absPath hcs, comps_absPath hds] at h hlt
  obtain ⟨rest, rfl⟩ := h
  cases rest with
  | nil => simp at hlt
  | cons c rest =>
    have hc := length_pos_iff.2 (hds c (by simp)).1
    rw [absPath_of_ne_nil (append_ne_nil_of_right_ne_nil cs (cons_ne_nil c rest)), render_append]
    by_cases h0 : cs = []
    · simp [h0]
      omega
    · simp [absPath_of_ne_nil h0]

theorem length_le_iff (hp : Normal p) (hq : Normal q) (h1 : comps p <+: comps abs)
    (h2 : comps q <+: comps abs) : (comps p).length ≤ (comps q).length ↔ p.length ≤ q.length := by
  constructor
  · intro h
    have hpq := prefix_of_prefix_length_le h1 h2 h
    rcases h.lt_or_eq with hlt | heq
    · exact (length_lt_of_comps hp hq hpq hlt).le
    · rw [← hp.absPath_comps, hpq.eq_of_length heq, hq.absPath_comps]
  · contrapose!
    intro h
    exact length_lt_of_comps hq hp (prefix_of_prefix_length_le h2 h1 h.le) h

theorem covers_iff (hp : Normal m.pre) (ha : Normal abs) :
    m.covers abs ↔ comps m.pre <+: comps abs := by
  obtain ⟨cs, hcs, rfl⟩ := ha
  obtain ⟨ds, hds, hd⟩ := hp
  rw [Mount.covers_absPath hcs, comps_absPath hcs, hd, comps_absPath hds]
  constructor
  · rintro (h | ⟨cs1, cs2, rfl, h⟩)
    · have h0 := congrArg comps h
      rw [comps_absPath hds] at h0
      simp [h0, slash]
    · have h1 := congrArg comps h
      rw [comps_absPath hds, comps_render fun c hc => (hcs c (by simp [hc])).ne_nil_noSlash] at h1
      exact h1 ▸ prefix_append _ _
  · rintro ⟨rest, rfl⟩
    by_cases h0 : ds = []
    · exact .inl (by simp [h0, slash])
    · exact .inr ⟨ds, rest, rfl, absPath_of_ne_nil h0⟩

theorem mem_selected (h : m ∈ selected ms abs) : m ∈ ms ∧ comps m.pre <+: comps abs := by
  simpa using argmax_mem h

theorem deepest_eq_selected (hms : ∀ m ∈ ms, Normal m.pre) (ha : Normal abs) :
    deepest ms abs = selected ms abs := by
  induction ms using List.reverseRecOn with
  | nil => rfl
  | append_singleton ms m ih =>
    have hm := hms m (by simp)
    have hms' : ∀ m ∈ ms, Normal m.pre := fun n hn => hms n (by simp [hn])
    simp only [deepest_concat, ih hms', deepestStep, covers_iff hm ha]
    by_cases hc : comps m.pre <+: comps abs
    · have hs : selected (ms ++ [m]) abs = Option.casesOn (selected ms abs) (some m) fun c =>
          if (comps m.pre).length < (comps c.pre).length then some c else some m := by
        simp [selected, filter_append, hc, argmax_cons]
      cases h : selected ms abs with
      | none => simp [hs, h, hc, bestLen]
      | some c =>
        obtain ⟨h1, h2⟩ := mem_selected h
        simp only [hs, h, hc, bestLen, true_and, Option.map_some, Option.getD_some,
          ← length_le_iff (hms' c h1) hm h2 hc, ← not_le, ite_not]
    · simp [selected, filter_append, hc]

theorem underVirtualMount_iff (ha : Normal abs) : underVirtualMount ms abs ↔
    ∃ v ∈ ms, v.producer.isSome ∧ v.covers abs ∧ (v.pre = slash → abs = slash) := by
  have hroot : abs[1]? ≠ some '/' ∧ (abs.length = 1 ↔ abs = slash) ∧ slash <+: abs := by
    obtain ⟨cs, hcs, rfl⟩ := ha
    cases cs with
    | nil => simp [slash]
    | cons c cs =>
      obtain ⟨h1, h2, -⟩ := hcs c (by simp)
      cases c with
      | nil => exact absurd rfl h1
      | cons x c =>
        rw [mem_cons, not_or] at h2
        simp [absPath, slash, Ne.symm h2.1]
  simp only [underVirtualMount, any_eq_true, Bool.and_eq_true, Mount.covers, Bool.or_eq_true,
    beq_iff_eq, isPrefixOf_iff_prefix, and_assoc]
  refine exists_congr fun v => and_congr_right fun _ => and_congr_right fun _ => ?_
  by_cases h : v.pre = slash
  · simp [h, hroot]
    simp [slash, hroot]
  · simp [h]

/-- Where a host mount serves the path no virtual one does but at the root, and a virtual root
serves the root only. -/
def Served (ms : List Mount) (abs : Str) (m : Mount) : Prop :=
  if m.producer.isSome then m.pre = slash → abs = slash
  else ∀ v ∈ ms, v.producer.isSome → comps v.pre <+: comps abs → v.pre = slash ∧ abs ≠ slash

theorem mount_selection_iff (ms : List Mount) (abs : Str) (hms : ∀ m ∈ ms, Normal m.pre)
    (ha : Normal abs) :
    (deepest ms abs = selected ms abs ∧
        (underVirtualMount ms abs ↔ ∃ m ∈ selected ms abs, m.producer.isSome)) ↔
      ∀ m ∈ selected ms abs, Served ms abs m := by
  rw [underVirtualMount_iff ha]
  constructor
  · rintro ⟨-, hu⟩ m hm
    unfold Served
    split_ifs with hp
    · intro hs
      obtain ⟨v, hv, -, hvc, hroot⟩ := hu.2 ⟨m, hm, hp⟩
      have hle :=
        le_of_mem_argmax
        (mem_reverse.2 (mem_filter.2 ⟨hv, decide_eq_true ((covers_iff (hms v hv) ha).1 hvc)⟩)) hm
      rw [hs, show comps slash = [] from by simp [slash]] at hle
      apply hroot
      rw [← (hms v hv).absPath_comps, length_eq_zero_iff.1 (Nat.le_zero.1 hle)]
      rfl
    · intro v hv hvp hvc
      by_contra hno
      obtain ⟨n, hn, hnp⟩ :=
        hu.1 ⟨v, hv, hvp, (covers_iff (hms v hv) ha).2 hvc,
        fun h => by_contra fun h' => hno ⟨h, h'⟩⟩
      exact hp (Option.mem_unique hm hn ▸ hnp)
  · intro h
    refine ⟨deepest_eq_selected hms ha, ?_, ?_⟩
    · rintro ⟨v, hv, hvp, hvc, hroot⟩
      rw [covers_iff (hms v hv) ha] at hvc
      cases hm : selected ms abs with
      | none =>
        simpa [hvc] using filter_eq_nil_iff.1 (reverse_eq_nil_iff.1 (argmax_eq_none.1 hm)) v hv
      | some m =>
        refine ⟨m, rfl, by_contra fun hp => ?_⟩
        have hs := h m hm
        rw [Served, if_neg hp] at hs
        obtain ⟨h1, h2⟩ := hs v hv hvp hvc
        exact h2 (hroot h1)
    · rintro ⟨m, hm, hmp⟩
      have hs := h m hm
      rw [Served, if_pos hmp] at hs
      obtain ⟨h1, h2⟩ := mem_selected hm
      exact ⟨m, h1, hmp, (covers_iff (hms m h1) ha).2 h2, hs⟩

/-- Mounts of `main_macos.cpp`: the terminal is a host mount inside `/dev`. -/
def macMounts : List Mount :=
  [mountHost [] "/" "/root" [] (by decide), mountVirtual "/dev" fun _ => .error .enoent,
    mountHost [] "/dev/tty" "/dev/tty" [] (by decide)]

theorem macMounts_normal :
    (∀ m ∈ macMounts, Normal m.pre) ∧ Normal "/dev/null" ∧ Normal "/dev/tty" := by
  have h : ∀ cs : List Str, (∀ c ∈ cs, IsName c) → Normal (absPath cs) := fun _ => normal_absPath
  refine ⟨?_, h ["dev", "null"] (by decide), h ["dev", "tty"] (by decide)⟩
  simpa [macMounts] using ⟨h [] (by decide), h ["dev"] (by decide), h ["dev", "tty"] (by decide)⟩

theorem mount_selection_iff_null : underVirtualMount macMounts "/dev/null" ↔
    ∃ m ∈ selected macMounts "/dev/null", m.producer.isSome := by
  obtain ⟨h1, h2, -⟩ := macMounts_normal
  refine ((mount_selection_iff macMounts _ h1 h2).2 fun m hm => ?_).2
  rw [← deepest_eq_selected h1 h2] at hm
  cases hm
  exact fun h => absurd h (by decide)

theorem tty_under_devfs : ¬(underVirtualMount macMounts "/dev/tty" ↔
    ∃ m ∈ selected macMounts "/dev/tty", m.producer.isSome) := by
  obtain ⟨h1, -, h2⟩ := macMounts_normal
  intro h
  obtain ⟨m, hm, hp⟩ := h.1 (by decide)
  rw [← deepest_eq_selected h1 h2] at hm
  cases hm
  cases hp

end Linuxity.Abi
