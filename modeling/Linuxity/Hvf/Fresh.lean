import Linuxity.Hvf.MemCalls

/-!
# Hvf.Fresh — what new memory of the macOS backend shows

The heap, the mappings and the images of a process take turns in the same RAM.  A byte is clear, and
reads as zero, until something is stored in it, and again once it has been cleared.  The run in
which only one value exists tells which bytes are not clear, whatever was stored.
-/

namespace Linuxity.Hvf.Fresh

open Logic Mem List

variable {β γ : Type} (size : ℕ)

structure Guest (β : Type) where
  space : AddressSpace
  mem : ℕ → Option β

/-- A program as `hvf_exec` loads it: what it stores in RAM, and the layout it reports. -/
structure Program (β : Type) where
  puts : List (Put β)
  brkBase : ℕ
  segments : List Segment
  sp : ℕ

inductive Event (β : Type) where
  /-- The guest writes, or a call writes for it. -/
  | store (a : ℕ) (bs : List β)
  | call (c : MemCall β)
  /-- An `execve` that gets to load its program. -/
  | exec (prog : Program β)

/-- Before the load every area is cleared that is anonymous or writable. -/
def clearOld (vmas : List Vma) : List (Put β) :=
  vmas.flatMap fun v =>
    if !v.val.anonymous && !v.val.prot.write then [] else zeroPut size v.lo v.size

def step (s : Guest β) : Event β → Guest β
  | .store a bs => { s with mem := (Put.put a bs).on s.mem }
  | .call c => ⟨(doMemory size s.space c).space, Put.all (doMemory size s.space c).puts s.mem⟩
  | .exec prog =>
    ⟨imageSpace size prog.brkBase prog.segments prog.sp,
      Put.all (clearOld size s.space.vmas ++ prog.puts) s.mem⟩

def powerOn : Guest β := ⟨AddressSpace.reset 0 0, fun _ => none⟩

/-! ## New memory -/

def Live (s : AddressSpace) (x : ℕ) : Prop :=
  (∃ v ∈ s.vmas, v.lo ≤ x ∧ x < v.hi) ∨ s.brkBase ≤ x ∧ x < s.brkCur

def shown (len : ℕ) : Backing β → ℕ
  | .file content => min len content.length
  | _ => 0

/-- The bytes that a call makes the guest's: the heap between the old and the new break, a mapping
past what it shows of a file, and a moved mapping where nothing of the old one is moved to. -/
def New (s : AddressSpace) : MemCall β → ℕ → Prop
  | .brk want, a => s.brkCur ≤ a ∧ a < (s.setBrk want.toNat).brkCur
  | .mmap hint len prot fixed backing, a =>
    ∃ at_, (doMmap size s hint.toNat len.toNat prot fixed backing).ret = .ok at_ ∧
      at_ + shown len.toNat backing ≤ a ∧ a < at_ + pageUp len.toNat
  | .mremap old oldLen newLen mayMove, a =>
    pageUp oldLen.toNat < pageUp newLen.toNat ∧
    ∃ dst, (doMremap size s old.toNat oldLen.toNat newLen.toNat mayMove : Effect β).ret = .ok dst ∧
      dst ≤ a ∧ a < dst + pageUp newLen.toNat ∧
      ¬(a < dst + pageUp oldLen.toNat ∧ Live s (old.toNat + (a - dst)))
  | _, _ => False

def ReadsZero (s : Guest UInt8) : Event UInt8 → Prop
  | .call c => ∀ a, New size s.space c a → ((step size s (.call c)).mem a).getD 0 = 0
  | _ => True

/-! ## When it does -/

def Placed (s : AddressSpace) (hint len : ℕ) (prot : GuestProt) (fixed anon : Bool)
    (at_ : ℕ) : Prop :=
  (s.map hint len prot fixed anon).1 = some at_ ∧ hasSpan size at_ (pageUp len)

/-- Nothing has been stored, since it was cleared last, in the bytes that the call itself does not
clear: those between the old and the new break, those of a file's mapping between its length and the
end of its last page, and those of `mremap`'s old range that are mapped no more. -/
def Clean (s : Guest Unit) : Event Unit → Prop
  | .call (.brk want) =>
    ∀ a, s.space.brkCur ≤ a → a < (s.space.setBrk want.toNat).brkCur → s.mem a = none
  | .call (.mmap hint len prot fixed (.file _)) =>
    ∀ at_, Placed size s.space hint.toNat len.toNat prot fixed false at_ →
      ∀ a, at_ + len.toNat ≤ a → a < at_ + pageUp len.toNat → s.mem a = none
  | .call (.mremap old oldLen newLen mayMove) =>
    mayMove → pageUp oldLen.toNat < pageUp newLen.toNat →
      hasSpan size old.toNat (pageUp oldLen.toNat) → ∀ v dst, s.space.find old.toNat = some v →
      Placed size s.space 0 (pageUp newLen.toNat) v.val.prot false v.val.anonymous dst →
      ∀ x, old.toNat ≤ x → x < old.toNat + pageUp oldLen.toNat → ¬Live s.space x → s.mem x = none
  | _ => True

/-! ## One call -/

section Calls

variable {size : ℕ} {s : AddressSpace} {hint len : ℕ} {prot : GuestProt} {fixed : Bool} {at_ : ℕ}

theorem doMmap_anon_ret : (doMmap size s hint len prot fixed (.anon : Backing β)).ret = .ok at_ →
    Placed size s hint len prot fixed true at_ ∧
      (doMmap size s hint len prot fixed (.anon : Backing β)).puts = [.clear at_ (pageUp len)] := by
  unfold doMmap Placed
  intro h
  rw [show (Backing.anon : Backing β).isAnon from rfl] at h ⊢
  cases hm : s.map hint len prot fixed true with
  | mk found t =>
    rw [hm] at h
    cases found with
    | none => cases h
    | some p =>
      dsimp only at h ⊢
      by_cases hs : hasSpan size p (pageUp len) = false
      · rw [if_pos hs] at h
        cases h
      · rw [if_neg hs] at h ⊢
        cases h
        have hs : hasSpan size at_ (pageUp len) := eq_true_of_ne_false hs
        exact ⟨⟨rfl, hs⟩, zeroPut_span hs⟩

variable {content : List β} {dst newLen old oldLen : ℕ} {mayMove : Bool}

theorem doMmap_file_ret : (doMmap size s hint len prot fixed (.file content)).ret = .ok at_ ↔
    Placed size s hint len prot fixed false at_ := by
  unfold doMmap Placed
  rw [show (Backing.file content).isAnon = false from rfl]
  cases s.map hint len prot fixed false with
  | mk found t =>
    cases found with
    | none => simp
    | some p =>
      dsimp only
      by_cases hs : hasSpan size p (pageUp len) = false
      · rw [if_pos hs]
        constructor
        · intro h
          cases h
        · rintro ⟨he, ht⟩
          cases he
          rw [hs] at ht
          cases ht
      · rw [if_neg hs]
        constructor
        · intro h
          cases h
          exact ⟨rfl, eq_true_of_ne_false hs⟩
        · rintro ⟨he, _⟩
          cases he
          rfl

theorem doMmap_file_puts (h : Placed size s hint len prot fixed false at_) :
    (doMmap size s hint len prot fixed (.file content)).puts =
      .put at_ (content.take len) ::
      if (content.take len).length < len
      then zeroPut size (at_ + (content.take len).length) (len - (content.take len).length)
      else [] := by
  obtain ⟨hp, hs⟩ := h
  unfold doMmap
  rw [show (Backing.file content).isAnon = false from rfl]
  cases hm : s.map hint len prot fixed false with
  | mk found t =>
    rw [hm] at hp
    cases hp
    dsimp only
    rw [if_neg (by rw [hs]; decide)]

theorem doMmap_bad {e : ℕ} :
    (doMmap size s hint len prot fixed (.badFd : Backing β)).ret ≠ .ok at_ ∧
      (doMmap size s hint len prot fixed (.readError e : Backing β)).ret ≠ .ok at_ := by
  constructor
  · unfold doMmap
    cases s.map hint len prot fixed (Backing.badFd : Backing β).isAnon with
    | mk found t =>
      cases found with
      | none => exact fun h => by cases h
      | some p =>
        dsimp only
        split_ifs
        · exact fun h => by cases h
        · exact fun h => by cases h
  · unfold doMmap
    cases s.map hint len prot fixed (Backing.readError e : Backing β).isAnon with
    | mk found t =>
      cases found with
      | none => exact fun h => by cases h
      | some p =>
        dsimp only
        split_ifs
        · exact fun h => by cases h
        · exact fun h => by cases h

/-- Past the file's content a mapping is cleared up to its length and left as it was from there
on. -/
theorem file_past_content {m : ℕ → Option β} {a : ℕ}
    (h : Placed size s hint len prot fixed false at_) (hlen : len ≤ pageUp len)
    (ha : at_ + min len content.length ≤ a) :
    Put.all (doMmap size s hint len prot fixed (.file content)).puts m a =
      if a < at_ + len then none else m a := by
  rw [doMmap_file_puts h, Put.all_cons]
  have hl : (content.take len).length = min len content.length := length_take
  rw [hl]
  by_cases hc : min len content.length < len
  · rw [if_pos hc]
    rw [zeroPut_span (hasSpan_part h.2 hc hlen), Put.all_cons]
    show (Put.clear _ _).on _ a = _
    by_cases hlt : a < at_ + len
    · rw [if_pos hlt, Put.clear_on ha (by omega)]
    · rw [if_neg hlt, Put.clear_on_of_apart (by omega), Put.put_on_of_apart (by omega)]
  · rw [if_neg hc, if_neg (by omega)]
    exact Put.put_on_of_apart (by omega)

theorem doMremap_grow_ret (hlt : pageUp oldLen < pageUp newLen) :
    (doMremap size s old oldLen newLen mayMove : Effect β).ret = .ok dst ↔
      mayMove ∧ hasSpan size old (pageUp oldLen) ∧ ∃ v, s.find old = some v ∧
      Placed size s 0 (pageUp newLen) v.val.prot false v.val.anonymous dst := by
  have hpp : pageUp (pageUp newLen) = pageUp newLen := pageUp_of_mod (pageUp_mod _) (pageUp_lt _)
  unfold doMremap Placed
  rw [hpp]
  cases s.find old with
  | none => simp
  | some v =>
    dsimp only
    rw [if_neg (Nat.not_le.2 hlt)]
    cases mayMove with
    | false => simp
    | true =>
      rw [if_neg (by decide)]
      cases hm : s.map 0 (pageUp newLen) v.val.prot false v.val.anonymous with
      | mk found t =>
        cases found with
        | none => simp [hm]
        | some p =>
          dsimp only
          split_ifs with hs
          · constructor
            · intro h
              cases h
            · rintro ⟨_, ho, w, hw, hp, hn⟩
              cases hw
              rw [hm] at hp
              cases hp
              rw [ho, hn] at hs
              rcases hs with hs | hs <;> cases hs
          · obtain ⟨ho, hn⟩ := not_or.1 hs
            constructor
            · intro h
              cases h
              exact ⟨rfl, eq_true_of_ne_false ho, v, rfl, by rw [hm], eq_true_of_ne_false hn⟩
            · rintro ⟨_, _, w, hw, hp, _⟩
              cases hw
              rw [hm] at hp
              cases hp
              rfl

theorem doMremap_grow_puts (hlt : pageUp oldLen < pageUp newLen)
    (h : (doMremap size s old oldLen newLen mayMove : Effect β).ret = .ok dst) :
    (doMremap size s old oldLen newLen mayMove : Effect β).puts =
      [.move dst old (pageUp oldLen),
      .clear (dst + pageUp oldLen) (pageUp newLen - pageUp oldLen)] := by
  obtain ⟨rfl, ho, v, hv, hp, hn⟩ := (doMremap_grow_ret hlt).1 h
  rw [pageUp_of_mod (pageUp_mod _) (pageUp_lt _)] at hn
  unfold doMremap
  rw [hv]
  dsimp only
  rw [if_neg (Nat.not_le.2 hlt), if_neg (by decide)]
  cases hm : s.map 0 (pageUp newLen) v.val.prot false v.val.anonymous with
  | mk found t =>
    rw [hm] at hp
    cases hp
    dsimp only
    rw [if_neg (by rw [ho, hn]; decide)]
    exact congrArg _ (zeroPut_span (hasSpan_part hn hlt le_rfl))

/-- A moved mapping holds what the old range held, and is clear past it. -/
theorem mremap_moved {a : ℕ} {m : ℕ → Option β} (hlt : pageUp oldLen < pageUp newLen)
    (h : (doMremap size s old oldLen newLen mayMove : Effect β).ret = .ok dst) (ha : dst ≤ a)
    (ha' : a < dst + pageUp newLen) :
    Put.all (doMremap size s old oldLen newLen mayMove : Effect β).puts m a =
      if a < dst + pageUp oldLen then m (old + (a - dst)) else none := by
  rw [doMremap_grow_puts hlt h, Put.all_cons, Put.all_cons]
  show (Put.clear _ _).on _ a = _
  split_ifs with hlo
  · rw [Put.clear_on_of_apart (.inl hlo), Put.move_on ha hlo]
  · rw [Put.clear_on (by omega) (by omega)]

end Calls

/-- New memory is clear after a call exactly if what the call does not clear was clear before. -/
theorem new_clear_iff (size : ℕ) (s : Guest Unit) (c : MemCall Unit) :
    (∀ a, New size s.space c a → (step size s (.call c)).mem a = none) ↔
      Clean size s (.call c) := by
  cases c with
  | brk want =>
    exact ⟨fun h a h1 h2 => h a ⟨h1, h2⟩, fun h a ha => h a ha.1 ha.2⟩
  | munmap | mprotect | madvise => exact ⟨fun _ => trivial, fun _ a ha => ha.elim⟩
  | mmap hint len prot fixed backing =>
    show (∀ a, _ → Put.all (doMmap size s.space hint.toNat len.toNat prot fixed backing).puts s.mem
        a = none) ↔ _
    cases backing with
    | anon =>
      refine ⟨fun _ => trivial, fun _ a ha => ?_⟩
      obtain ⟨at_, hr, h1, h2⟩ := ha
      rw [(doMmap_anon_ret hr).2]
      exact Put.clear_on h1 h2
    | badFd => exact ⟨fun _ => trivial, fun _ a ⟨_, hr, _⟩ => absurd hr (doMmap_bad (e := 0)).1⟩
    | readError e => exact ⟨fun _ => trivial, fun _ a ⟨_, hr, _⟩ => absurd hr doMmap_bad.2⟩
    | file content =>
      have hlen : ∀ {at_}, Placed size s.space hint.toNat len.toNat prot fixed false at_ →
          len.toNat ≤ pageUp len.toNat := by
        intro at_ hp
        have hs := hp.2
        exact le_pageUp_of_ne (Machine.hasSpan_iff.1 hs).2.2.1
      constructor
      · intro h at_ hp a h1 h2
        have hsh : shown len.toNat (.file content) ≤ len.toNat := Nat.min_le_left _ _
        have hn := h a ⟨at_, doMmap_file_ret.2 hp, by omega, h2⟩
        rw [file_past_content hp (hlen hp) (by unfold shown at hsh; omega), if_neg (by omega)] at hn
        exact hn
      · rintro h a ⟨at_, hr, h1, h2⟩
        have hp := doMmap_file_ret.1 hr
        rw [file_past_content hp (hlen hp) h1]
        by_cases hlt : a < at_ + len.toNat
        · rw [if_pos hlt]
        · rw [if_neg hlt]
          exact h at_ hp a (by omega) h2
  | mremap old oldLen newLen mayMove =>
    show (∀ a, _ → Put.all (doMremap size s.space old.toNat oldLen.toNat newLen.toNat mayMove).puts
        s.mem a = none) ↔ _
    constructor
    · intro h hmay hlt hspan v dst hv hp x h1 h2 hx
      have hr :
          (doMremap size s.space old.toNat oldLen.toNat newLen.toNat mayMove : Effect Unit).ret =
          .ok dst :=
        (doMremap_grow_ret hlt).2 ⟨hmay, hspan, v, hv, hp⟩
      have hback : old.toNat + (dst + (x - old.toNat) - dst) = x := by omega
      have hn :=
        h (dst + (x - old.toNat)) ⟨hlt, dst,
        hr, by omega, by omega, by rw [hback]; exact fun h' => hx h'.2⟩
      rw [mremap_moved hlt hr (by omega) (by omega), if_pos (by omega), hback] at hn
      exact hn
    · rintro h a ⟨hlt, dst, hr, h1, h2, hl⟩
      obtain ⟨hmay, hspan, v, hv, hp⟩ := (doMremap_grow_ret hlt).1 hr
      rw [mremap_moved hlt hr h1 h2]
      by_cases hlo : a < dst + pageUp oldLen.toNat
      · rw [if_pos hlo]
        exact h hmay hlt hspan v dst hv hp _ (by omega) (by omega) fun h' => hl ⟨hlo, h'⟩
      · rw [if_neg hlo]

/-! ## Whole runs -/

variable (f : β → γ)

def Program.map (prog : Program β) : Program γ :=
  ⟨prog.puts.map (Put.map f), prog.brkBase, prog.segments, prog.sp⟩

def Event.map : Event β → Event γ
  | .store a bs => .store a (bs.map f)
  | .call c => .call (c.map f)
  | .exec prog => .exec (prog.map f)

def Guest.map (s : Guest β) : Guest γ := ⟨s.space, fun x => (s.mem x).map f⟩

theorem clearOld_map (size : ℕ) (vmas : List Vma) :
    (clearOld size vmas).map (Put.map f) = clearOld size vmas := by
  unfold clearOld
  rw [map_flatMap]
  congr 1
  funext v
  rw [apply_ite (List.map (Put.map f)), zeroPut_map]
  rfl

theorem step_map (size : ℕ) (s : Guest β) (e : Event β) :
    step size (s.map f) (e.map f) = (step size s e).map f := by
  cases e with
  | store a bs => exact congrArg (Guest.mk s.space) (Put.on_map f s.mem (.put a bs))
  | call c =>
    show Guest.mk (doMemory size s.space (c.map f)).space
      (Put.all (doMemory size s.space (c.map f)).puts _) = _
    rw [doMemory_map]
    exact congrArg (Guest.mk _) (Put.all_map f _ s.mem)
  | exec prog =>
    show Guest.mk _ (Put.all (clearOld size s.space.vmas ++ prog.puts.map (Put.map f)) _) = _
    rw [← clearOld_map f size s.space.vmas, ← map_append]
    exact congrArg (Guest.mk _) (Put.all_map f _ s.mem)

variable {size : ℕ}

theorem new_map {s : AddressSpace} {c : MemCall β} {a : ℕ} :
    New size s (c.map f) a ↔ New size s c a := by
  cases c with
  | brk | munmap | mprotect | madvise => exact Iff.rfl
  | mmap hint len prot fixed backing =>
    have hs : shown len.toNat (backing.map f) = shown len.toNat backing := by
      cases backing with
      | file content => exact congrArg (min len.toNat) (length_map f)
      | _ => rfl
    show (∃ at_, (doMmap size s hint.toNat len.toNat prot fixed (backing.map f)).ret = .ok at_ ∧
      at_ + shown len.toNat (backing.map f) ≤ a ∧ a < at_ + pageUp len.toNat) ↔ _
    rw [doMmap_map, hs]
    exact Iff.rfl
  | mremap old oldLen newLen mayMove =>
    show (_ ∧ ∃ dst, (doMremap size s old.toNat oldLen.toNat newLen.toNat mayMove : Effect γ).ret =
        .ok dst ∧ _) ↔ _
    rw [doMremap_map f]
    exact Iff.rfl

/-- The run that only tells which bytes have been stored to. -/
def shape (e : Event β) : Event Unit := e.map fun _ => ()

theorem map_unit {δ : Type} (f : Unit → δ) (l : List Unit) : (l.map f).map (fun _ => ()) = l := by
  rw [map_map]
  exact map_id _

theorem shape_map {δ : Type} (f : Unit → δ) (e : Event Unit) : shape (e.map f) = e := by
  cases e with
  | store a bs => exact congrArg (Event.store a) (map_unit f bs)
  | call c =>
    refine congrArg Event.call ?_
    cases c with
    | mmap hint len prot fixed backing =>
      cases backing with
      | file content =>
        exact congrArg (fun l => MemCall.mmap hint len prot fixed (.file l)) (map_unit f content)
      | _ => rfl
    | _ => rfl
  | exec prog =>
    have hp : (prog.puts.map (Put.map f)).map (Put.map fun _ => ()) = prog.puts := by
      rw [map_map]
      refine (map_congr_left fun p _ => ?_).trans (map_id _)
      cases p with
      | put a bs => exact congrArg (Put.put a) (map_unit f bs)
      | _ => rfl
    exact congrArg (fun l => Event.exec ⟨l, prog.brkBase, prog.segments, prog.sp⟩) hp

/-- Where nothing has been stored the new memory reads as zero, whatever was stored elsewhere. -/
theorem readsZero_of_clean (run : List (Event UInt8)) (s : Guest UInt8)
    (h : Along (step size) (Clean size) (s.map fun _ => ()) (run.map shape)) :
    Along (step size) (ReadsZero size) s run := by
  induction run generalizing s with
  | nil => trivial
  | cons e run ih =>
    obtain ⟨hc, ht⟩ := h
    rw [shape, step_map] at ht
    refine ⟨?_, ih _ ht⟩
    cases e with
    | store | exec => trivial
    | call c =>
      intro a ha
      have hn :=
        (new_clear_iff size (s.map fun _ => ()) (c.map fun _ => ())).2 hc a ((new_map _).2 ha)
      have hm : step size (s.map fun _ => ()) (.call (c.map fun _ => ())) =
          (step size s (.call c)).map fun _ => () :=
        step_map _ size s (.call c)
      rw [hm] at hn
      rw [Option.map_eq_none_iff.1 hn]
      rfl

/-- With ones stored everywhere, new memory that reads as zero was not stored to. -/
theorem clean_of_ones (es : List (Event Unit)) (s : Guest Unit)
    (h : Along (step size) (ReadsZero size) (s.map fun _ => 1) (es.map (Event.map fun _ => 1))) :
    Along (step size) (Clean size) s es := by
  induction es generalizing s with
  | nil => trivial
  | cons e es ih =>
    obtain ⟨hz, ht⟩ := h
    rw [step_map] at ht
    refine ⟨?_, ih _ ht⟩
    cases e with
    | store | exec => trivial
    | call c =>
      refine (new_clear_iff size s c).1 fun a ha => ?_
      have hr := hz a ((new_map _).2 ha)
      have hm : step size (s.map fun _ => (1 : UInt8)) (.call (c.map fun _ => 1)) =
          (step size s (.call c)).map fun _ => 1 :=
        step_map _ size s (.call c)
      rw [hm] at hr
      have hr : (((step size s (.call c)).mem a).map fun _ => (1 : UInt8)).getD 0 = 0 := hr
      cases hx : (step size s (.call c)).mem a with
      | none => rfl
      | some u =>
        rw [hx] at hr
        exact absurd hr (show (1 : UInt8) ≠ 0 by decide)

/-- All runs that differ only in the bytes that are stored read zero from new memory exactly if, in
the run they share, no new byte that the call does not clear was stored to since it was cleared. -/
theorem new_memory_zero_iff (size : ℕ) (es : List (Event Unit)) :
    (∀ run : List (Event UInt8), run.map shape = es →
        Along (step size) (ReadsZero size) powerOn run) ↔
      Along (step size) (Clean size) powerOn es := by
  constructor
  · intro h
    refine clean_of_ones es powerOn (h _ ?_)
    rw [map_map]
    exact (map_congr_left fun e _ => shape_map _ e).trans (map_id _)
  · rintro h run rfl
    exact readsZero_of_clean run powerOn h

/-! ## A heap that shrinks and grows again -/

def heapProgram : Program UInt8 := ⟨[], 0x10000000, [], 0x7fff0000⟩

/-- A page is given to the heap, written, given back and taken again. -/
def regrowth : List (Event UInt8) :=
  [.exec heapProgram, .call (.brk 0x10001000), .store 0x10000010 [42], .call (.brk 0x10000000),
    .call (.brk 0x10001000)]

theorem regrown_heap_shows_past :
    ((regrowth.foldl (step 0x80000000) powerOn).mem 0x10000010).getD 0 = 42 ∧
      ¬Along (step 0x80000000) (ReadsZero 0x80000000) powerOn regrowth := by
  have h42 : ((regrowth.foldl (step 0x80000000) powerOn).mem 0x10000010).getD 0 = 42 := by decide
  refine ⟨h42, fun h => ?_⟩
  obtain ⟨_, _, _, _, hz, _⟩ := h
  have h0 := hz 0x10000010 ⟨by decide, by decide⟩
  exact absurd (h42.symm.trans h0) (by decide)

end Linuxity.Hvf.Fresh
