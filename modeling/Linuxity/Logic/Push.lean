import Linuxity.Logic.Memory
import Mathlib.Data.List.Forall2
import Mathlib.Data.Int.DivMod

/-!
# Logic.Push — pieces below one another

A stack of bytes grows down from an address: each piece goes below the one before it, at a multiple
of the alignment.  Addresses are 64-bit words.  The store may refuse a write, and the piece is then
left out.
-/

namespace Logic

open List

def bytesAt (m : Memory) (a n : ℕ) : List UInt8 := (List.range n).map fun i => m (a + i)

def wordsAt (m : Memory) (a n : ℕ) : List ℕ := (List.range n).map fun i => word m (a + 8 * i)

def wordBytes (v : ℕ) : List UInt8 := (List.range 8).map fun i => UInt8.ofNat (v / 256 ^ i)

def subWord (a n : ℕ) : ℕ := (a + 2 ^ 64 - n % 2 ^ 64) % 2 ^ 64

section Read

variable {m m' : Memory} {a n : ℕ} {bs cs : List UInt8} {vs : List ℕ}

@[simp] theorem length_wordBytes (v : ℕ) : (wordBytes v).length = 8 := rfl

@[simp] theorem length_words (vs : List ℕ) : (vs.flatMap wordBytes).length = 8 * vs.length := by
  induction vs with
  | nil => rfl
  | cons v vs ih => rw [flatMap_cons, length_append, ih, length_wordBytes, length_cons]; ring

theorem bytesAt_congr (h : ∀ x, a ≤ x → x < a + n → m' x = m x) :
    bytesAt m' a n = bytesAt m a n := by
  refine map_congr_left fun i hi => ?_
  have := mem_range.1 hi
  exact h _ (by omega) (by omega)

theorem bytesAt_putBytes : bytesAt (putBytes m a bs) a bs.length = bs := by
  refine ext_getElem? fun i => ?_
  rw [bytesAt, List.getElem?_map]
  by_cases hi : i < bs.length
  · rw [List.getElem?_range hi, Option.map_some, putBytes_of_mem (by omega) (by omega),
      Nat.add_sub_cancel_left]
  · rw [List.getElem?_eq_none (by simpa using hi), List.getElem?_eq_none (by omega),
      Option.map_none]

theorem putBytes_append :
    putBytes m a (bs ++ cs) = putBytes (putBytes m a bs) (a + bs.length) cs := by
  funext x
  by_cases h1 : x < a
  · rw [putBytes_of_apart (.inl h1), putBytes_of_apart (.inl (by omega)),
      putBytes_of_apart (.inl h1)]
  by_cases h2 : x < a + bs.length
  · rw [putBytes_of_apart (.inl h2)]
    refine Option.some.inj ?_
    rw [putBytes_of_mem (by omega) (by rw [length_append]; omega), putBytes_of_mem (by omega) h2,
      List.getElem?_append_left (by omega)]
  by_cases h3 : x < a + bs.length + cs.length
  · refine Option.some.inj ?_
    rw [putBytes_of_mem (by omega) (by rw [length_append]; omega), putBytes_of_mem (by omega) h3,
      List.getElem?_append_right (by omega)]
    congr 1
    omega
  · rw [putBytes_of_apart (.inr (by rw [length_append]; omega)),
      putBytes_of_apart (.inr (by omega)), putBytes_of_apart (.inr (by omega))]

theorem putBytes_congr {x : ℕ} (h : m' x = m x) : putBytes m' a bs x = putBytes m a bs x := by
  rw [putBytes, putBytes, h]

theorem word_putBytes {v : ℕ} (hv : v < 2 ^ 64) : word (putBytes m a (wordBytes v)) a = v := by
  have hbytes : ∀ i < 8, putBytes m a (wordBytes v) (a + i) = UInt8.ofNat (v / 256 ^ i) := by
    intro i hi
    refine Option.some.inj ?_
    rw [putBytes_of_mem (by omega) (by rw [length_wordBytes]; omega), Nat.add_sub_cancel_left,
      wordBytes, List.getElem?_map, List.getElem?_range hi, Option.map_some]
  exact (numAt_eq_mod hbytes).trans (Nat.mod_eq_of_lt hv)

theorem wordsAt_succ : wordsAt m a (n + 1) = word m a :: wordsAt m (a + 8) n := by
  rw [wordsAt, range_succ_eq_map, map_cons, map_map, wordsAt]
  refine congrArg₂ _ rfl (map_congr_left fun i _ => ?_)
  rw [Function.comp_apply, show a + 8 * i.succ = a + 8 + 8 * i by omega]

theorem wordsAt_putBytes (hvs : ∀ v ∈ vs, v < 2 ^ 64) :
    wordsAt (putBytes m a (vs.flatMap wordBytes)) a vs.length = vs := by
  induction vs generalizing m a with
  | nil => rfl
  | cons v vs ih =>
    have htail := @ih (putBytes m a (wordBytes v)) (a + 8) fun w hw => hvs w (.tail _ hw)
    have hhead :
        word (putBytes (putBytes m a (wordBytes v)) (a + 8) (vs.flatMap wordBytes)) a = v := by
      rw [word_congr fun x _ hx => putBytes_of_apart (.inl hx)]
      exact word_putBytes (hvs v (.head _))
    rw [length_cons, wordsAt_succ, flatMap_cons, putBytes_append, length_wordBytes, htail, hhead]

theorem wordsAt_congr (h : ∀ x, a ≤ x → x < a + 8 * n → m' x = m x) :
    wordsAt m' a n = wordsAt m a n := by
  refine map_congr_left fun i hi => word_congr fun x h1 h2 => ?_
  have := mem_range.1 hi
  exact h x (by omega) (by omega)

theorem wordsAt_take {k : ℕ} (h : k ≤ n) : wordsAt m a k = (wordsAt m a n).take k := by
  rw [wordsAt, wordsAt, ← map_take, take_range, Nat.min_eq_left h]

end Read

/-! ## Where the pieces go -/

def lower (align : ℕ) (sp : ℤ) (n : ℕ) : ℤ := (sp - n) / align * align

def lowest (align : ℕ) : ℤ → List ℕ → ℤ
  | sp, [] => sp
  | sp, n :: ns => lowest align (lower align sp n) ns

section Places

variable {align n : ℕ} {sp : ℤ} {ns : List ℕ}

theorem lower_le (ha : 0 < align) : lower align sp n ≤ sp - n := Int.ediv_mul_le _ (by omega)

theorem lowest_le (ha : 0 < align) : lowest align sp ns ≤ sp := by
  induction ns generalizing sp with
  | nil => exact le_rfl
  | cons n ns ih =>
    have h1 : lowest align sp (n :: ns) ≤ lower align sp n := ih
    have h2 := @lower_le align n sp ha
    omega

theorem wordDown_eq (ha : align ∣ 2 ^ 64) {x : ℕ} {z : ℤ} (h : (x : ℤ) = z % 2 ^ 64) :
    ((x / align * align : ℕ) : ℤ) = z / align * align % 2 ^ 64 := by
  have hdvd : (align : ℤ) ∣ 2 ^ 64 := by exact_mod_cast ha
  have hmod : ((x % align : ℕ) : ℤ) = z % align := by
    push_cast
    rw [h, Int.emod_emod_of_dvd z hdvd]
  have hx := Nat.div_add_mod' x align
  have hz := Int.ediv_mul_add_emod z align
  omega

theorem push_eq (ha : align ∣ 2 ^ 64) {x : ℕ} (h : (x : ℤ) = sp % 2 ^ 64) :
    ((subWord x n / align * align : ℕ) : ℤ) = lower align sp n % 2 ^ 64 := by
  refine wordDown_eq ha ?_
  rw [subWord]
  omega

end Places

/-! ## Pushing pieces -/

section Push

variable {σ : Type*} (write : ℕ → List UInt8 → σ → Option σ) (align : ℕ)

/-- A piece goes below `sp`; the store is as before if it refuses the write. -/
def pushBytes (bs : List UInt8) (sp : ℕ) (s : σ) : ℕ × σ :=
  let sp := subWord sp bs.length / align * align
  (sp, (write sp bs s).getD s)

/-- The addresses of the pieces, the last of them again, and the store. -/
def pushAll : List (List UInt8) → ℕ → σ → List ℕ × ℕ × σ
  | [], sp, s => ([], sp, s)
  | bs :: pieces, sp, s =>
    let (p, s) := pushBytes write align bs sp s
    let (ps, sp, s) := pushAll pieces p s
    (p :: ps, sp, s)

/-- Between `lo` and `hi` the store takes every write. -/
structure Backed (mem : σ → Memory) (lo hi : ℕ) (I : σ → Prop) : Prop where
  write_ok : ∀ {s a bs}, I s → bs ≠ [] → lo ≤ a → a + bs.length ≤ hi →
    ∃ s', write a bs s = some s' ∧ I s' ∧ ∀ x, lo ≤ x → x < hi → mem s' x = putBytes (mem s) a bs x

def PieceAt (m : Memory) (lo hi p : ℕ) (bs : List UInt8) : Prop :=
  lo ≤ p ∧ p + bs.length ≤ hi ∧ bytesAt m p bs.length = bs

/-- What pushing the pieces below `sp` does between `lo` and `hi`. -/
structure Pushed (mem : σ → Memory) (lo hi : ℕ) (I : σ → Prop) (pieces : List (List UInt8)) (sp : ℕ)
    (s : σ) (r : List ℕ × ℕ × σ) : Prop where
  inv : I r.2.2
  place : (r.2.1 : ℤ) = lowest align sp (pieces.map List.length)
  pieces : List.Forall₂ (PieceAt (mem r.2.2) r.2.1 sp) r.1 pieces
  frame : ∀ x, lo ≤ x → x < hi → x < r.2.1 ∨ sp ≤ x → mem r.2.2 x = mem s x

variable {write align} {mem : σ → Memory} {lo hi sp : ℕ} {I : σ → Prop} {s : σ} {m m' : Memory}

theorem pushAll_append (bss css : List (List UInt8)) :
    pushAll write align (bss ++ css) sp s =
      let (ps, sp, s) := pushAll write align bss sp s
      let (qs, sp, s) := pushAll write align css sp s
      (ps ++ qs, sp, s) := by
  induction bss generalizing sp s with
  | nil => rfl
  | cons bs bss ih =>
    simp only [cons_append, pushAll, ih]

theorem length_pushAll (pieces : List (List UInt8)) :
    (pushAll write align pieces sp s).1.length = pieces.length := by
  induction pieces generalizing sp s with
  | nil => rfl
  | cons bs pieces ih => exact congrArg (· + 1) ih

theorem pushAll_place (ha : align ∣ 2 ^ 64) {z : ℤ} (h : (sp : ℤ) = z % 2 ^ 64)
    (pieces : List (List UInt8)) :
    ((pushAll write align pieces sp s).2.1 : ℤ) =
      lowest align z (pieces.map List.length) % 2 ^ 64 := by
  induction pieces generalizing sp s z with
  | nil => exact h
  | cons bs pieces ih => exact ih (push_eq ha h)

theorem forall₂_append_iff {α β : Type*} {R : α → β → Prop} {as as' : List α} {bs bs' : List β}
    (h : as.length = bs.length) :
    List.Forall₂ R (as ++ as') (bs ++ bs') ↔ List.Forall₂ R as bs ∧ List.Forall₂ R as' bs' := by
  induction as generalizing bs with
  | nil =>
    obtain rfl := length_eq_zero_iff.1 h.symm
    simp
  | cons a as ih =>
    obtain ⟨b, bs, rfl⟩ := exists_cons_of_length_eq_add_one h.symm
    rw [cons_append, cons_append, List.forall₂_cons, List.forall₂_cons, ih (Nat.succ.inj h),
      and_assoc]

theorem forall₂_imp_of_right {α β : Type*} {R S : α → β → Prop} {Q : β → Prop} {as : List α}
    {bs : List β}
    (h : List.Forall₂ R as bs) (hQ : ∀ b ∈ bs, Q b) (hS : ∀ a b, Q b → R a b → S a b) :
      List.Forall₂ S as bs := by
  induction h with
  | nil => exact .nil
  | cons hr _ ih =>
    obtain ⟨hb, hbs⟩ := forall_mem_cons.1 hQ
    exact .cons (hS _ _ hb hr) (ih hbs)

theorem exists_of_forall₂ {α β : Type*} {R : α → β → Prop} {as : List α} {bs : List β}
    (h : List.Forall₂ R as bs) : (∀ a ∈ as, ∃ b, R a b) ∧ ∀ b ∈ bs, ∃ a, R a b := by
  induction h with
  | nil => simp
  | cons hr _ ih => exact ⟨forall_mem_cons.2 ⟨⟨_, hr⟩, ih.1⟩, forall_mem_cons.2 ⟨⟨_, hr⟩, ih.2⟩⟩

theorem PieceAt.mono {lo' hi' p : ℕ} {bs : List UInt8} (h : PieceAt m lo hi p bs) (hlo : lo' ≤ lo)
    (hhi : hi ≤ hi') (hm : ∀ x, lo ≤ x → x < hi → m' x = m x) : PieceAt m' lo' hi' p bs := by
  obtain ⟨h1, h2, h3⟩ := h
  refine ⟨by omega, by omega, ?_⟩
  rw [bytesAt_congr fun x hx1 hx2 => hm x (by omega) (by omega), h3]

theorem pushBytes_spec (hb : Backed write mem lo hi I) (ha : 0 < align) {bs : List UInt8} (hs : I s)
    (hbs : bs ≠ [])
    (hsp : sp ≤ hi) (hhi : hi < 2 ^ 64) (hlo : (lo : ℤ) ≤ lower align sp bs.length) :
    let r := pushBytes write align bs sp s
    I r.2 ∧ (r.1 : ℤ) = lower align sp bs.length ∧ r.1 + bs.length ≤ sp ∧
      ∀ x, lo ≤ x → x < hi → mem r.2 x = putBytes (mem s) r.1 bs x := by
  have hle := @lower_le align bs.length sp ha
  have hsub : subWord sp bs.length = sp - bs.length := by
    rw [subWord]
    omega
  have hplace : ((subWord sp bs.length / align * align : ℕ) : ℤ) = lower align sp bs.length := by
    rw [hsub, lower]
    push_cast
    rw [Nat.cast_sub (by omega)]
  obtain ⟨s', hw, hs', hmem⟩ :=
    hb.write_ok (a := subWord sp bs.length / align * align) hs hbs (by omega) (by omega)
  dsimp only [pushBytes]
  rw [hw]
  exact ⟨hs', hplace, by omega, hmem⟩

/-- **Pieces that find room are all there.** -/
theorem pushAll_spec (hb : Backed write mem lo hi I) (ha : 0 < align) (hhi : hi < 2 ^ 64)
    {pieces : List (List UInt8)} (hs : I s) (hne : ∀ bs ∈ pieces, bs ≠ []) (hsp : sp ≤ hi)
    (hlo : (lo : ℤ) ≤ lowest align sp (pieces.map List.length)) :
    Pushed align mem lo hi I pieces sp s (pushAll write align pieces sp s) := by
  induction pieces generalizing sp s with
  | nil => exact ⟨hs, rfl, .nil, fun _ _ _ _ => rfl⟩
  | cons bs pieces ih =>
    have hlow : lowest align (lower align sp bs.length) (pieces.map List.length) ≤
        lower align sp bs.length := lowest_le ha
    have hlo' : (lo : ℤ) ≤ lowest align (lower align sp bs.length) (pieces.map List.length) := hlo
    obtain ⟨h1, h2, h3, h4⟩ := pushBytes_spec hb ha hs (hne bs (.head _)) hsp hhi (by omega)
    rw [pushAll]
    generalize pushBytes write align bs sp s = r at h1 h2 h3 h4
    obtain ⟨p, s1⟩ := r
    dsimp only at h1 h2 h3 h4 ⊢
    rw [← h2] at hlo' hlow
    obtain ⟨k1, k2, k3, k4⟩ := ih h1 (fun cs hcs => hne cs (.tail _ hcs)) (by omega) hlo'
    generalize pushAll write align pieces p s1 = r at k1 k2 k3 k4
    obtain ⟨ps, q, s2⟩ := r
    dsimp only at k1 k2 k3 k4 ⊢
    have hq : q ≤ p := by omega
    refine ⟨k1, k2.trans (by rw [h2]; rfl),
      .cons ⟨hq, h3, ?_⟩ (k3.imp fun _ _ h => h.mono le_rfl (by omega) fun _ _ _ => rfl),
      fun x hx1 hx2 (hx3 : x < q ∨ sp ≤ x) => ?_⟩
    · have hframe : bytesAt (mem s2) p bs.length = bytesAt (putBytes (mem s) p bs) p bs.length := by
        refine bytesAt_congr fun x hx1 hx2 => ?_
        rw [k4 x (by omega) (by omega) (.inr hx1), h4 x (by omega) (by omega)]
      rw [hframe, bytesAt_putBytes]
    · rw [k4 x hx1 hx2 (by omega), h4 x hx1 hx2, putBytes_of_apart (by omega)]

end Push

/-! ## Vectors of words that end at a zero -/

/-- The words from `a` on up to the first zero. -/
def Terminated (m : Memory) (a : ℕ) (vs : List ℕ) : Prop :=
  wordsAt m a (vs.length + 1) = vs ++ [0] ∧ ∀ v ∈ vs, v ≠ 0

variable {m m' : Memory} {a n : ℕ} {vs ws : List ℕ}

theorem getElem?_wordsAt {i : ℕ} (hi : i < n) :
    (wordsAt m a n)[i]? = some (word m (a + 8 * i)) := by
  rw [wordsAt, List.getElem?_map, List.getElem?_range hi, Option.map_some]

theorem Terminated.word_eq (h : Terminated m a vs) {i : ℕ} (hi : i < vs.length) :
    vs[i]? = some (word m (a + 8 * i)) := by
  rw [← getElem?_wordsAt (show i < vs.length + 1 by omega), h.1, List.getElem?_append_left hi]

theorem Terminated.word_end (h : Terminated m a vs) : word m (a + 8 * vs.length) = 0 := by
  have hlast := @getElem?_wordsAt m a (vs.length + 1) vs.length (by omega)
  rw [h.1, List.getElem?_concat_length] at hlast
  exact (Option.some.inj hlast).symm

theorem Terminated.word_ne_zero (h : Terminated m a vs) {i : ℕ} (hi : i < vs.length) :
    word m (a + 8 * i) ≠ 0 := by
  exact h.2 _ (mem_of_getElem? (h.word_eq hi))

theorem Terminated.unique (h : Terminated m a vs) (h' : Terminated m a ws) : vs = ws := by
  have hlen : vs.length = ws.length := by
    rcases Nat.lt_trichotomy vs.length ws.length with hlt | heq | hlt
    · exact absurd h.word_end (h'.word_ne_zero hlt)
    · exact heq
    · exact absurd h'.word_end (h.word_ne_zero hlt)
  have happ : vs ++ [0] = ws ++ [0] := by rw [← h.1, ← h'.1, hlen]
  exact append_cancel_right happ

/-- The words of a chunk up to a zero are those of the vector. -/
theorem Terminated.takeWhile_chunk (h : Terminated m a vs) {k : ℕ} (hk : k ≤ vs.length) (n : ℕ) :
    (wordsAt m (a + 8 * k) n).takeWhile (· != 0) = (vs.drop k).take n := by
  induction n generalizing k with
  | zero => rw [take_zero]; rfl
  | succ n ih =>
    rw [wordsAt_succ, takeWhile_cons]
    obtain hk | rfl := hk.lt_or_eq
    · have hne := h.word_ne_zero hk
      have hword := h.word_eq hk
      rw [if_pos (by simpa using hne), show a + 8 * k + 8 = a + 8 * (k + 1) by omega, ih hk,
        drop_eq_getElem_cons hk, take_succ_cons]
      rw [List.getElem?_eq_getElem hk] at hword
      rw [Option.some.inj hword]
    · rw [h.word_end, drop_length, take_nil]
      rfl

theorem terminated_putBytes (h0 : ∀ v ∈ vs, v ≠ 0) (hlt : ∀ v ∈ vs, v < 2 ^ 64) :
    Terminated (putBytes m a ((vs ++ [0]).flatMap wordBytes)) a vs := by
  refine ⟨?_, h0⟩
  have hwords := @wordsAt_putBytes m a (vs ++ [0]) ?_
  · rwa [length_append, length_singleton] at hwords
  · intro v hv
    obtain hv | hv := mem_append.1 hv
    · exact hlt v hv
    · rw [mem_singleton.1 hv]
      decide

end Logic
