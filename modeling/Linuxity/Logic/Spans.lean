import Mathlib.Data.List.TakeWhile
import Mathlib.Order.MinMax
import Mathlib.Tactic.Order

/-!
# Logic.Spans — half-open spans in order

A list of spans `[lo, hi)`, each with a value, is read as a partial function on points.  `Covers` is
that reading; it is defined for any list.  `Spans` says that the spans are in order and apart, and
then at most one of them covers a point.  Each operation has one lemma for `Covers` and one for
`Spans`.
-/

namespace Logic

open List

structure Span (α β : Type) where
  lo : α
  hi : α
  val : β
  deriving DecidableEq

variable {α β : Type} [LinearOrder α]

def Span.Holds (s : Span α β) (x : α) : Prop := s.lo ≤ x ∧ x < s.hi

instance (s : Span α β) (x : α) : Decidable (s.Holds x) :=
  inferInstanceAs (Decidable (s.lo ≤ x ∧ x < s.hi))

/-- Some span gives the point the value. -/
def Covers (l : List (Span α β)) (x : α) (b : β) : Prop := ∃ s ∈ l, s.Holds x ∧ s.val = b

/-- None is empty, and each ends before the next begins. -/
structure Spans (l : List (Span α β)) : Prop where
  proper : ∀ s ∈ l, s.lo < s.hi
  apart : l.Pairwise fun s t => s.hi ≤ t.lo

/-- What the first span that holds the point gives it. -/
def valueAt (l : List (Span α β)) (x : α) : Option β := (l.find? fun s => s.Holds x).map Span.val

/-- The parts of a span outside `[lo, hi)`. -/
def Span.outside (lo hi : α) (s : Span α β) : List (Span α β) :=
  if s.hi ≤ lo ∨ hi ≤ s.lo then [s]
  else (if s.lo < lo then [⟨s.lo, lo, s.val⟩] else []) ++
    if hi < s.hi then [⟨hi, s.hi, s.val⟩] else []

def Span.repaint (f : β → β) (lo hi : α) (s : Span α β) : List (Span α β) :=
  if s.hi ≤ lo ∨ hi ≤ s.lo then [s]
  else (if s.lo < lo then [⟨s.lo, lo, s.val⟩] else []) ++ ⟨max s.lo lo, min s.hi hi, f s.val⟩ ::
    if hi < s.hi then [⟨hi, s.hi, s.val⟩] else []

def carve (lo hi : α) (l : List (Span α β)) : List (Span α β) := l.flatMap (Span.outside lo hi)

def repaint (f : β → β) (lo hi : α) (l : List (Span α β)) : List (Span α β) :=
  l.flatMap (Span.repaint f lo hi)

/-- In front of the first span that does not begin earlier. -/
def place (s : Span α β) (l : List (Span α β)) : List (Span α β) :=
  l.takeWhile (fun t => t.lo < s.lo) ++ s :: l.dropWhile fun t => t.lo < s.lo

/-- Neighbours that meet and have one value become one span; `last` is the span being built. -/
def joinFrom [DecidableEq β] (last : Span α β) : List (Span α β) → List (Span α β)
  | [] => [last]
  | cur :: rest =>
    if last.hi = cur.lo ∧ last.val = cur.val then joinFrom ⟨last.lo, cur.hi, last.val⟩ rest
    else last :: joinFrom cur rest

def join [DecidableEq β] : List (Span α β) → List (Span α β)
  | [] => []
  | s :: rest => joinFrom s rest

/-! ## Reading a list -/

variable {b : β} {x hi lo : α} {l l' : List (Span α β)} {s : Span α β} {f : β → β} {P : α → Prop}

theorem covers_nil : ¬Covers [] x b := fun ⟨_, hs, _⟩ => nomatch hs

theorem covers_cons : Covers (s :: l) x b ↔ (s.Holds x ∧ s.val = b) ∨ Covers l x b := by
  unfold Covers
  simp

theorem covers_append : Covers (l ++ l') x b ↔ Covers l x b ∨ Covers l' x b := by
  unfold Covers
  simp only [mem_append, or_and_right, exists_or]

theorem spans_nil : Spans ([] : List (Span α β)) := ⟨nofun, List.Pairwise.nil⟩

theorem spans_cons : Spans (s :: l) ↔ s.lo < s.hi ∧ (∀ t ∈ l, s.hi ≤ t.lo) ∧ Spans l := by
  constructor
  · intro h
    obtain ⟨hs, hl⟩ := pairwise_cons.1 h.apart
    exact ⟨h.proper s mem_cons_self, hs, fun t ht => h.proper t (mem_cons_of_mem s ht), hl⟩
  · rintro ⟨hs, hfirst, hl⟩
    refine ⟨fun t ht => ?_, pairwise_cons.2 ⟨hfirst, hl.apart⟩⟩
    rcases mem_cons.1 ht with rfl | ht
    · exact hs
    · exact hl.proper t ht

theorem spans_append : Spans (l ++ l') ↔ Spans l ∧ Spans l' ∧ ∀ s ∈ l, ∀ t ∈ l', s.hi ≤ t.lo := by
  constructor
  · intro h
    obtain ⟨hl, hl', hall⟩ := pairwise_append.1 h.apart
    exact ⟨⟨fun s hs => h.proper s (mem_append_left l' hs), hl⟩,
      ⟨fun s hs => h.proper s (mem_append_right l hs), hl'⟩, hall⟩
  · rintro ⟨hl, hl', hall⟩
    exact ⟨forall_mem_append.2 ⟨hl.proper, hl'.proper⟩,
      pairwise_append.2 ⟨hl.apart, hl'.apart, hall⟩⟩

theorem Spans.unique (hl : Spans l) {t : Span α β} (hs : s ∈ l) (ht : t ∈ l)
    (hsx : s.Holds x) (htx : t.Holds x) : s = t := by
  induction l with
  | nil => exact nomatch hs
  | cons u l ih =>
    obtain ⟨_, hfirst, hl⟩ := spans_cons.1 hl
    rcases mem_cons.1 hs with hsu | hs' <;> rcases mem_cons.1 ht with htu | ht'
    · exact hsu.trans htu.symm
    · subst hsu
      exact absurd (lt_of_lt_of_le hsx.2 ((hfirst t ht').trans htx.1)) (lt_irrefl x)
    · subst htu
      exact absurd (lt_of_lt_of_le htx.2 ((hfirst s hs').trans hsx.1)) (lt_irrefl x)
    · exact ih hl hs' ht'

theorem holds_of_find? (h : l.find? (fun s => s.Holds x) = some s) : s.Holds x := by
  simpa using List.find?_some h

theorem valueAt_eq_some (hl : Spans l) : valueAt l x = some b ↔ Covers l x b := by
  unfold valueAt Covers
  rw [Option.map_eq_some_iff]
  constructor
  · rintro ⟨s, hs, rfl⟩
    exact ⟨s, mem_of_find?_eq_some hs, holds_of_find? hs, rfl⟩
  · rintro ⟨s, hs, hx, rfl⟩
    rcases hf : l.find? fun s => decide (s.Holds x) with _ | t
    · exact absurd (decide_eq_true hx) (List.find?_eq_none.1 hf s hs)
    · exact ⟨t, hf, by rw [hl.unique (mem_of_find?_eq_some hf) hs (holds_of_find? hf) hx]⟩

theorem valueAt_eq_none : valueAt l x = none ↔ ∀ b, ¬Covers l x b := by
  unfold valueAt
  rw [Option.map_eq_none_iff, List.find?_eq_none]
  constructor
  · rintro h b ⟨s, hs, hx, _⟩
    exact h s hs (decide_eq_true hx)
  · intro h s hs hx
    exact h s.val ⟨s, hs, of_decide_eq_true hx, rfl⟩

/-! ## Cutting -/

theorem covers_flatMap {f : Span α β → List (Span α β)} :
    Covers (l.flatMap f) x b ↔ ∃ s ∈ l, Covers (f s) x b := by
  unfold Covers
  simp only [mem_flatMap]
  constructor
  · rintro ⟨t, ⟨s, hs, ht⟩, h⟩
    exact ⟨s, hs, t, ht, h⟩
  · rintro ⟨s, hs, t, ht, h⟩
    exact ⟨t, ⟨s, hs, ht⟩, h⟩

/-- Cutting each span within its bounds leaves the spans in order. -/
theorem Spans.flatMap {f : Span α β → List (Span α β)} (hl : Spans l)
    (hf : ∀ s, s.lo < s.hi → Spans (f s) ∧ ∀ t ∈ f s, s.lo ≤ t.lo ∧ t.hi ≤ s.hi) :
    Spans (l.flatMap f) := by
  induction l with
  | nil => exact spans_nil
  | cons s l ih =>
    obtain ⟨hs, hfirst, hl⟩ := spans_cons.1 hl
    rw [flatMap_cons]
    refine spans_append.2 ⟨(hf s hs).1, ih hl, fun t ht u hu => ?_⟩
    obtain ⟨s', hs', hu⟩ := mem_flatMap.1 hu
    exact ((hf s hs).2 t ht).2.trans ((hfirst s' hs').trans ((hf s' (hl.proper s' hs')).2 u hu).1)

theorem covers_outside :
    Covers (s.outside lo hi) x b ↔ (s.Holds x ∧ s.val = b) ∧ ¬(lo ≤ x ∧ x < hi) := by
  unfold Span.outside
  by_cases hd : s.hi ≤ lo ∨ hi ≤ s.lo
  · rw [if_pos hd, covers_cons]
    have hout : s.Holds x → ¬(lo ≤ x ∧ x < hi) := by
      rintro ⟨h1, h2⟩ ⟨h3, h4⟩
      rcases hd with hd | hd <;> order
    exact ⟨fun h => h.elim (fun h => ⟨h, hout h.1⟩) fun h => absurd h covers_nil,
      fun h => Or.inl h.1⟩
  · rw [if_neg hd, covers_append]
    obtain ⟨hlo, hhi⟩ := not_or.1 hd
    -- A point of the span is left of the cut, in it, or right of it.
    have hleft : Covers (if s.lo < lo then [⟨s.lo, lo, s.val⟩] else []) x b ↔
        (s.Holds x ∧ s.val = b) ∧ x < lo := by
      split_ifs with h
      · rw [covers_cons]
        simp only [covers_nil, or_false, Span.Holds]
        exact ⟨fun ⟨⟨h1, h2⟩, hv⟩ => ⟨⟨⟨h1, by order⟩, hv⟩, h2⟩,
          fun ⟨⟨⟨h1, _⟩, hv⟩, h2⟩ => ⟨⟨h1, h2⟩, hv⟩⟩
      · simp only [covers_nil, false_iff, Span.Holds]
        rintro ⟨⟨⟨h1, _⟩, _⟩, h2⟩
        order
    have hright : Covers (if hi < s.hi then [⟨hi, s.hi, s.val⟩] else []) x b ↔
        (s.Holds x ∧ s.val = b) ∧ hi ≤ x := by
      split_ifs with h
      · rw [covers_cons]
        simp only [covers_nil, or_false, Span.Holds]
        exact ⟨fun ⟨⟨h1, h2⟩, hv⟩ => ⟨⟨⟨by order, h2⟩, hv⟩, h1⟩,
          fun ⟨⟨⟨_, h1⟩, hv⟩, h2⟩ => ⟨⟨h2, h1⟩, hv⟩⟩
      · simp only [covers_nil, false_iff, Span.Holds]
        rintro ⟨⟨⟨_, h1⟩, _⟩, h2⟩
        order
    rw [hleft, hright, ← and_or_left, not_and_or, not_le, not_lt]

theorem covers_carve : Covers (carve lo hi l) x b ↔ Covers l x b ∧ ¬(lo ≤ x ∧ x < hi) := by
  unfold carve
  rw [covers_flatMap]
  simp only [covers_outside]
  exact ⟨fun ⟨s, hs, h, hx⟩ => ⟨⟨s, hs, h⟩, hx⟩, fun ⟨⟨s, hs, h⟩, hx⟩ => ⟨s, hs, h, hx⟩⟩

theorem spans_left (hlo : lo < s.hi) :
    Spans (if s.lo < lo then [(⟨s.lo, lo, s.val⟩ : Span α β)] else []) ∧
      ∀ t ∈ (if s.lo < lo then [(⟨s.lo, lo, s.val⟩ : Span α β)] else []), s.lo ≤ t.lo ∧ t.hi ≤ lo ∧
      t.hi ≤ s.hi := by
  split_ifs with h
  · refine ⟨spans_cons.2 ⟨h, nofun, spans_nil⟩, fun t ht => ?_⟩
    rw [mem_singleton.1 ht]
    exact ⟨le_refl _, le_refl _, hlo.le⟩
  · exact ⟨spans_nil, nofun⟩

theorem spans_right (hhi : s.lo < hi) :
    Spans (if hi < s.hi then [(⟨hi, s.hi, s.val⟩ : Span α β)] else []) ∧
      ∀ t ∈ (if hi < s.hi then [(⟨hi, s.hi, s.val⟩ : Span α β)] else []), hi ≤ t.lo ∧ s.lo ≤ t.lo ∧
      t.hi ≤ s.hi := by
  split_ifs with h
  · refine ⟨spans_cons.2 ⟨h, nofun, spans_nil⟩, fun t ht => ?_⟩
    rw [mem_singleton.1 ht]
    exact ⟨le_refl _, hhi.le, le_refl _⟩
  · exact ⟨spans_nil, nofun⟩

theorem spans_singleton (hs : s.lo < s.hi) : Spans [s] :=
  spans_cons.2 ⟨hs, nofun, spans_nil⟩

theorem spans_outside (hlh : lo ≤ hi) (hs : s.lo < s.hi) :
    Spans (s.outside lo hi) ∧ ∀ t ∈ s.outside lo hi, s.lo ≤ t.lo ∧ t.hi ≤ s.hi := by
  unfold Span.outside
  by_cases hd : s.hi ≤ lo ∨ hi ≤ s.lo
  · rw [if_pos hd]
    refine ⟨spans_singleton hs, fun t ht => ?_⟩
    rw [mem_singleton.1 ht]
    exact ⟨le_refl _, le_refl _⟩
  rw [if_neg hd]
  obtain ⟨hlo, hhi⟩ := not_or.1 hd
  obtain ⟨hl, hlb⟩ := spans_left (not_le.1 hlo)
  obtain ⟨hr, hrb⟩ := spans_right (not_le.1 hhi)
  refine ⟨spans_append.2 ⟨hl, hr, fun t ht u hu => (hlb t ht).2.1.trans (hlh.trans (hrb u hu).1)⟩,
    fun t ht => ?_⟩
  rcases mem_append.1 ht with ht | ht
  · exact ⟨(hlb t ht).1, (hlb t ht).2.2⟩
  · exact (hrb t ht).2

theorem Spans.carve (hlh : lo ≤ hi) (hl : Spans l) : Spans (carve lo hi l) :=
  hl.flatMap fun _ hs => spans_outside hlh hs

theorem valueAt_carve (hlh : lo ≤ hi) (hl : Spans l) (x : α) :
    valueAt (carve lo hi l) x = if lo ≤ x ∧ x < hi then none else valueAt l x := by
  refine Option.ext fun b => ?_
  rw [valueAt_eq_some (hl.carve hlh), covers_carve]
  split_ifs with hx
  · simp [hx]
  · rw [valueAt_eq_some hl, and_iff_left hx]

theorem covers_repaint_span : Covers (s.repaint f lo hi) x b ↔
    s.Holds x ∧ b = if lo ≤ x ∧ x < hi then f s.val else s.val := by
  have hout : Covers (s.outside lo hi) x b ↔ _ := covers_outside
  unfold Span.outside at hout
  unfold Span.repaint
  by_cases hd : s.hi ≤ lo ∨ hi ≤ s.lo
  · rw [if_pos hd] at hout ⊢
    rw [hout]
    have hne : s.Holds x → ¬(lo ≤ x ∧ x < hi) := by
      rintro ⟨h1, h2⟩ ⟨h3, h4⟩
      rcases hd with hd | hd <;> order
    constructor
    · rintro ⟨⟨hx, rfl⟩, hn⟩
      exact ⟨hx, (if_neg hn).symm⟩
    · rintro ⟨hx, rfl⟩
      exact ⟨⟨hx, (if_neg (hne hx)).symm⟩, hne hx⟩
  -- The middle part is what the cut took out, with its new value.
  rw [if_neg hd] at hout ⊢
  rw [covers_append] at hout
  rw [covers_append, covers_cons, ← or_assoc, or_right_comm, hout]
  simp only [Span.Holds, max_le_iff, lt_min_iff]
  split_ifs with hin
  · constructor
    · rintro (⟨_, hn⟩ | ⟨⟨⟨h1, _⟩, h2, _⟩, hv⟩)
      · exact absurd hin hn
      · exact ⟨⟨h1, h2⟩, hv.symm⟩
    · rintro ⟨⟨h1, h2⟩, hv⟩
      exact Or.inr ⟨⟨⟨h1, hin.1⟩, h2, hin.2⟩, hv.symm⟩
  · constructor
    · rintro (⟨⟨hx, hv⟩, _⟩ | ⟨⟨⟨_, h1⟩, _, h2⟩, _⟩)
      · exact ⟨hx, hv.symm⟩
      · exact absurd ⟨h1, h2⟩ hin
    · rintro ⟨hx, hv⟩
      exact Or.inl ⟨⟨hx, hv.symm⟩, hin⟩

theorem covers_repaint : Covers (repaint f lo hi l) x b ↔
    ∃ c, Covers l x c ∧ b = if lo ≤ x ∧ x < hi then f c else c := by
  unfold repaint
  rw [covers_flatMap]
  simp only [covers_repaint_span]
  constructor
  · rintro ⟨s, hs, hx, hb⟩
    exact ⟨s.val, ⟨s, hs, hx, rfl⟩, hb⟩
  · rintro ⟨_, ⟨s, hs, hx, rfl⟩, hb⟩
    exact ⟨s, hs, hx, hb⟩

theorem spans_repaint_span (hlh : lo < hi) (hs : s.lo < s.hi) :
    Spans (s.repaint f lo hi) ∧ ∀ t ∈ s.repaint f lo hi, s.lo ≤ t.lo ∧ t.hi ≤ s.hi := by
  unfold Span.repaint
  by_cases hd : s.hi ≤ lo ∨ hi ≤ s.lo
  · rw [if_pos hd]
    refine ⟨spans_singleton hs, fun t ht => ?_⟩
    rw [mem_singleton.1 ht]
    exact ⟨le_refl _, le_refl _⟩
  rw [if_neg hd]
  obtain ⟨hlo, hhi⟩ := not_or.1 hd
  obtain ⟨hl, hlb⟩ := spans_left (not_le.1 hlo)
  obtain ⟨hr, hrb⟩ := spans_right (not_le.1 hhi)
  have hmid : max s.lo lo < min s.hi hi :=
    max_lt (lt_min hs (not_le.1 hhi)) (lt_min (not_le.1 hlo) hlh)
  refine ⟨spans_append.2 ⟨hl, spans_cons.2 ⟨hmid, fun u hu => ?_, hr⟩, fun t ht u hu => ?_⟩,
    fun t ht => ?_⟩
  · exact (min_le_right _ _).trans (hrb u hu).1
  · rcases mem_cons.1 hu with rfl | hu
    · exact (hlb t ht).2.1.trans (le_max_right _ _)
    · exact (hlb t ht).2.1.trans (hlh.le.trans (hrb u hu).1)
  · rcases mem_append.1 ht with ht | ht
    · exact ⟨(hlb t ht).1, (hlb t ht).2.2⟩
    rcases mem_cons.1 ht with rfl | ht
    · exact ⟨le_max_left _ _, min_le_left _ _⟩
    · exact (hrb t ht).2

theorem Spans.repaint (hlh : lo < hi) (hl : Spans l) : Spans (repaint f lo hi l) :=
  hl.flatMap fun _ hs => spans_repaint_span hlh hs

theorem valueAt_repaint (hlh : lo < hi) (hl : Spans l) (x : α) :
    valueAt (repaint f lo hi l) x =
      if lo ≤ x ∧ x < hi then (valueAt l x).map f else valueAt l x := by
  refine Option.ext fun b => ?_
  rw [valueAt_eq_some (hl.repaint hlh), covers_repaint]
  split_ifs with hx
  · rw [Option.map_eq_some_iff]
    simp only [valueAt_eq_some hl, eq_comm]
  · rw [valueAt_eq_some hl, exists_eq_right']

/-! ## Placing and joining -/

theorem mem_place {t : Span α β} : t ∈ place s l ↔ t = s ∨ t ∈ l := by
  unfold place
  rw [mem_append, mem_cons, or_left_comm, ← mem_append, takeWhile_append_dropWhile]

theorem covers_place : Covers (place s l) x b ↔ (s.Holds x ∧ s.val = b) ∨ Covers l x b := by
  unfold Covers
  simp only [mem_place, or_and_right, exists_or, exists_eq_left]

/-- A span that is apart from all the others finds its place among them. -/
theorem Spans.place (hs : s.lo < s.hi) (hl : Spans l)
    (hd : ∀ t ∈ l, t.hi ≤ s.lo ∨ s.hi ≤ t.lo) : Spans (place s l) := by
  induction l with
  | nil => exact spans_singleton hs
  | cons t l ih =>
    obtain ⟨ht, hfirst, hl⟩ := spans_cons.1 hl
    have hd' : ∀ u ∈ l, u.hi ≤ s.lo ∨ s.hi ≤ u.lo := fun u hu => hd u (mem_cons_of_mem t hu)
    by_cases hlt : t.lo < s.lo
    · have hplace : Logic.place s (t :: l) = t :: Logic.place s l := by
        simp [Logic.place, hlt]
      have hts : t.hi ≤ s.lo :=
        (hd t (.head _)).resolve_right fun h => absurd (h.trans_lt hlt) (not_lt.2 hs.le)
      rw [hplace]
      refine spans_cons.2 ⟨ht, fun u hu => ?_, ih hl hd'⟩
      rcases mem_place.1 hu with rfl | hu
      · exact hts
      · exact hfirst u hu
    · have hplace : Logic.place s (t :: l) = s :: t :: l := by
        simp [Logic.place, hlt]
      have hst : s.hi ≤ t.lo := (hd t (.head _)).resolve_left fun h => hlt (lt_of_lt_of_le ht h)
      rw [hplace]
      refine spans_cons.2 ⟨hs, fun u hu => ?_, spans_cons.2 ⟨ht, hfirst, hl⟩⟩
      rcases mem_cons.1 hu with rfl | hu
      · exact hst
      · exact hst.trans (ht.le.trans (hfirst u hu))

/-- The new span covers its points, whatever the old ones gave them. -/
theorem valueAt_place (hs : s.lo < s.hi) (hl : Spans l) (hd : ∀ t ∈ l, t.hi ≤ s.lo ∨ s.hi ≤ t.lo)
    (x : α) : valueAt (place s l) x = if s.Holds x then some s.val else valueAt l x := by
  refine Option.ext fun b => ?_
  rw [valueAt_eq_some (hl.place hs hd), covers_place]
  split_ifs with hx
  · have hfree : ¬Covers l x b := by
      rintro ⟨t, ht, htx, _⟩
      obtain ⟨h1, h2⟩ := hx
      obtain ⟨h3, h4⟩ := htx
      rcases hd t ht with h | h <;> order
    rw [or_iff_left hfree, and_iff_right hx, Option.some_inj]
  · rw [valueAt_eq_some hl, or_iff_right fun h => hx h.1]

section Join

variable [DecidableEq β] {last : Span α β}

/-- Every span that is joined begins and ends where some span did. -/
theorem mem_joinFrom {t : Span α β} (h : t ∈ joinFrom last l) :
    (∃ s ∈ last :: l, t.lo = s.lo) ∧ ∃ s ∈ last :: l, t.hi = s.hi := by
  induction l generalizing last with
  | nil =>
    rw [mem_singleton.1 h]
    exact ⟨⟨last, .head _, rfl⟩, last, .head _, rfl⟩
  | cons cur rest ih =>
    rw [joinFrom] at h
    split_ifs at h with hj
    · obtain ⟨⟨s, hs, hlo⟩, u, hu, hhi⟩ := ih h
      refine ⟨?_, ?_⟩
      · rcases mem_cons.1 hs with rfl | hs
        · exact ⟨last, .head _, hlo⟩
        · exact ⟨s, .tail _ (.tail _ hs), hlo⟩
      · rcases mem_cons.1 hu with rfl | hu
        · exact ⟨cur, .tail _ mem_cons_self, hhi⟩
        · exact ⟨u, .tail _ (.tail _ hu), hhi⟩
    · rcases mem_cons.1 h with rfl | h
      · exact ⟨⟨t, .head _, rfl⟩, t, .head _, rfl⟩
      · obtain ⟨⟨s, hs, hlo⟩, u, hu, hhi⟩ := ih h
        exact ⟨⟨s, .tail _ hs, hlo⟩, u, .tail _ hu, hhi⟩

theorem spans_joinFrom (hl : Spans (last :: l)) : Spans (joinFrom last l) := by
  induction l generalizing last with
  | nil => exact hl
  | cons cur rest ih =>
    obtain ⟨hlast, hfirst, hrest⟩ := spans_cons.1 hl
    obtain ⟨hcur, hnext, htail⟩ := spans_cons.1 hrest
    have hle : last.hi ≤ cur.lo := hfirst cur mem_cons_self
    rw [joinFrom]
    split_ifs with hj
    · exact ih (spans_cons.2 ⟨hlast.trans_le (hle.trans hcur.le), hnext, htail⟩)
    · refine spans_cons.2 ⟨hlast, fun t ht => ?_, ih hrest⟩
      obtain ⟨⟨s, hs, hlo⟩, _⟩ := mem_joinFrom ht
      rw [hlo]
      exact hfirst s hs

theorem Spans.join (hl : Spans l) : Spans (join l) := by
  cases l with
  | nil => exact hl
  | cons s l => exact spans_joinFrom hl

theorem covers_joinFrom (hl : Spans (last :: l)) :
    Covers (joinFrom last l) x b ↔ Covers (last :: l) x b := by
  induction l generalizing last with
  | nil => exact Iff.rfl
  | cons cur rest ih =>
    obtain ⟨hlast, hfirst, hrest⟩ := spans_cons.1 hl
    obtain ⟨hcur, hnext, htail⟩ := spans_cons.1 hrest
    have hle : last.hi ≤ cur.lo := hfirst cur mem_cons_self
    rw [joinFrom]
    split_ifs with hj
    · obtain ⟨hmeet, hval⟩ := hj
      have hspans : Spans ((⟨last.lo, cur.hi, last.val⟩ : Span α β) :: rest) :=
        spans_cons.2 ⟨hlast.trans_le (hle.trans hcur.le), hnext, htail⟩
      rw [ih hspans, covers_cons, covers_cons, covers_cons, ← or_assoc, ← hval, ← or_and_right]
      -- The joined span holds what the two held.
      have hholds : (⟨last.lo, cur.hi, last.val⟩ : Span α β).Holds x ↔
          last.Holds x ∨ cur.Holds x := by
        constructor
        · rintro ⟨h1, h2⟩
          rcases lt_or_ge x last.hi with h | h
          · exact Or.inl ⟨h1, h⟩
          · exact Or.inr ⟨hmeet ▸ h, h2⟩
        · rintro (⟨h1, h2⟩ | ⟨h1, h2⟩)
          · exact ⟨h1, by order⟩
          · exact ⟨by order, h2⟩
      rw [hholds]
    · rw [covers_cons, ih hrest, covers_cons (s := last)]

theorem covers_join (hl : Spans l) : Covers (join l) x b ↔ Covers l x b := by
  cases l with
  | nil => exact Iff.rfl
  | cons s l => exact covers_joinFrom hl

theorem valueAt_join (hl : Spans l) (x : α) : valueAt (join l) x = valueAt l x := by
  refine Option.ext fun b => ?_
  rw [valueAt_eq_some hl.join, valueAt_eq_some hl, covers_join hl]

end Join

/-! ## End points -/

/-- Every span begins and ends at a point of the set. -/
def Ends (P : α → Prop) (l : List (Span α β)) : Prop := ∀ s ∈ l, P s.lo ∧ P s.hi

theorem Ends.carve (hl : Ends P l) (hlo : P lo) (hhi : P hi) : Ends P (carve lo hi l) := by
  intro t ht
  obtain ⟨s, hs, ht⟩ := mem_flatMap.1 ht
  obtain ⟨h1, h2⟩ := hl s hs
  unfold Span.outside at ht
  split_ifs at ht <;>
    simp only [mem_append, mem_singleton, not_mem_nil, or_false, false_or] at ht <;>
    grind

theorem Ends.repaint (hl : Ends P l) (hlo : P lo) (hhi : P hi) : Ends P (repaint f lo hi l) := by
  intro t ht
  obtain ⟨s, hs, ht⟩ := mem_flatMap.1 ht
  obtain ⟨h1, h2⟩ := hl s hs
  unfold Span.repaint at ht
  split_ifs at ht <;> simp only [mem_append, mem_cons, not_mem_nil, or_false, false_or] at ht <;>
    grind

theorem Ends.place (hl : Ends P l) (h1 : P s.lo) (h2 : P s.hi) : Ends P (place s l) := by
  intro t ht
  rcases mem_place.1 ht with rfl | ht
  · exact ⟨h1, h2⟩
  · exact hl t ht

theorem Ends.join [DecidableEq β] (hl : Ends P l) : Ends P (join l) := by
  cases l with
  | nil => exact hl
  | cons =>
    intro t ht
    obtain ⟨⟨s, hs, hlo⟩, u, hu, hhi⟩ := mem_joinFrom ht
    rw [hlo, hhi]
    exact ⟨(hl s hs).1, (hl u hu).2⟩

end Logic
