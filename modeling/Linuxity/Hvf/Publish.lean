import Linuxity.Hvf.PidSpace
import Linuxity.Logic.Stores
import Linuxity.Wire.Flags

/-!
# Hvf.Publish — the slot of a child, written by the child and by its parent (`do_fork`)

After the spawn the parent fills in the slot of the child, while the child already makes its first
calls.  Every store is a step of its own, and the stores of the two come in any order.
-/

namespace Linuxity.Hvf.Publish

open Logic PidSpace Wire

def kExe : ℕ := 256

/-- The fields of `Shared` at one number. -/
structure Slot where
  host : ℤ
  execed : Bool
  pgid : ℤ
  sid : ℤ
  ppid : ℤ
  exe : ℕ → UInt8

inductive Store where
  | host (v : ℤ)
  | execed (b : Bool)
  | pgid (v : ℤ)
  | sid (v : ℤ)
  | ppid (v : ℤ)
  | exe (i : ℕ) (c : UInt8)
  deriving DecidableEq

def put (s : Slot) : Store → Slot
  | .host v => { s with host := v }
  | .execed b => { s with execed := b }
  | .pgid v => { s with pgid := v }
  | .sid v => { s with sid := v }
  | .ppid v => { s with ppid := v }
  | .exe i c => { s with exe := Function.update s.exe i c }

/-- The name of an image: a path from the guest, which has no NUL in it. -/
structure Name where
  bytes : List UInt8
  noNul : 0 ∉ bytes

def Name.cut (n : Name) : List UInt8 := n.bytes.take (kExe - 1)

/-- A number that `allocate` gave. -/
structure Number where
  val : ℤ
  inTable : 0 < val ∧ val < kMax

def bind (host : ℤ) : List Store := [.execed false, .host host]

def setPgid (pgid : ℤ) : List Store := if 0 < pgid ∧ pgid < kMax then [.pgid pgid] else []

def setSid (sid : ℤ) : List Store := if 0 < sid ∧ sid < kMax then [.sid sid] else []

def markExeced : List Store := [.execed true]

def setPpid (parent : ℤ) : List Store := [.ppid parent]

def setExe (n : Name) : List Store := (n.cut ++ [0]).zipIdx.map fun (c, i) => .exe i c

def exeOf (s : Slot) : List UInt8 := ((List.range (kExe - 1)).map s.exe).takeWhile (· != 0)

variable (self : Number)

/-- `pgid_of` and `sid_of`: a process is its own leader where nothing is set. -/
def orSelf (v : ℤ) : ℤ := if v ≠ 0 then v else self.val

/-- The end of `do_fork`: the host pid, and what the child has from its parent. -/
structure Epilogue where
  host : ℤ
  pgid : ℤ
  sid : ℤ
  exe : Name
  parent : ℤ

def Epilogue.stores (e : Epilogue) : List Store :=
  bind e.host ++ setPgid e.pgid ++ setSid e.sid ++ setExe e.exe ++ setPpid e.parent

inductive Code where
  | done
  | store (st : Store) (next : Code)
  | load (get : Slot → ℤ) (next : ℤ → Code)

def Code.stores : List Store → Code → Code
  | [], next => next
  | st :: l, next => .store st (Code.stores l next)

/-- The calls of the child; an `execve` here is one that succeeds. -/
inductive Call where
  | setpgid (a0 a1 : ℕ)
  | setsid
  | execve (path : Name)

variable (calls : List Call)

def Call.code (next : Code) : Call → Code
  | .setpgid a0 a1 =>
    let pid := if a0 ≠ 0 then int32 a0 else self.val
    let pgid := if a1 ≠ 0 then int32 a1 else pid
    -- The group of another process goes to a slot of its own.
    if pid = self.val then .stores (setPgid pgid) next else next
  | .setsid =>
    .load Slot.pgid fun p =>
      if orSelf self p = self.val then
        .load Slot.sid fun s =>
          if orSelf self s = self.val then next
          else .stores (setSid self.val ++ setPgid self.val) next
      else .stores (setSid self.val ++ setPgid self.val) next
  | .execve path => .stores (setExe path ++ markExeced) next

def program : Code := calls.foldr (fun c next => c.code self next) .done

structure State where
  slot : Slot
  parent : List Store
  child : Code
  /-- The stores made so far, with `true` for those of the child. -/
  log : List (Bool × Store)

def start (slot : Slot) (e : Epilogue) (self : Number) (calls : List Call) : State :=
  ⟨slot, e.stores, program self calls, []⟩

/-- The next load or store of the child, or of the parent. -/
def step (s : State) : Bool → State
  | true =>
    match s.child with
    | .done => s
    | .store st next =>
      { s with slot := put s.slot st, child := next, log := s.log ++ [(true, st)] }
    | .load get next => { s with child := next (get s.slot) }
  | false =>
    match s.parent with
    | [] => s
    | st :: rest => { s with slot := put s.slot st, parent := rest, log := s.log ++ [(false, st)] }

def run (s : State) (turns : List Bool) : State := turns.foldl step s

def Finished (s : State) : Prop := s.parent = [] ∧ s.child = .done

/-! ## The parts of a slot -/

def pgidCell : Cell put ℤ where
  get := Slot.pgid
  writes
    | .pgid v => some v
    | _ => none
  get_apply := by rintro s (_ | _ | _ | _ | _ | _) <;> rfl

def sidCell : Cell put ℤ where
  get := Slot.sid
  writes
    | .sid v => some v
    | _ => none
  get_apply := by rintro s (_ | _ | _ | _ | _ | _) <;> rfl

def ppidCell : Cell put ℤ where
  get := Slot.ppid
  writes
    | .ppid v => some v
    | _ => none
  get_apply := by rintro s (_ | _ | _ | _ | _ | _) <;> rfl

def execedCell : Cell put Bool where
  get := Slot.execed
  writes
    | .execed b => some b
    | _ => none
  get_apply := by rintro s (_ | _ | _ | _ | _ | _) <;> rfl

def exeCell (i : ℕ) : Cell put UInt8 where
  get s := s.exe i
  writes
    | .exe j c => if j = i then some c else none
    | _ => none
  get_apply := by
    rintro s (_ | _ | _ | _ | _ | ⟨j, c⟩)
    case exe =>
      by_cases hj : j = i
      · subst hj
        dsimp only [put]
        rw [Function.update_self, if_pos rfl, Option.getD_some]
      · dsimp only [put]
        rw [Function.update_of_ne (Ne.symm hj), if_neg hj, Option.getD_none]
    all_goals rfl

def execs : List Name :=
  calls.filterMap fun
    | .execve path => some path
    | _ => none

/-- The slot has the group, the session, the flag and the name that the child has set. -/
def Published (s : State) : Prop :=
  (∀ v, lastWrite pgidCell.writes (of true s.log) = some v → s.slot.pgid = v) ∧
  (∀ v, lastWrite sidCell.writes (of true s.log) = some v → s.slot.sid = v) ∧
  (∀ b, lastWrite execedCell.writes (of true s.log) = some b → s.slot.execed = b) ∧
  ∀ n, (execs calls).getLast? = some n → exeOf s.slot = n.cut

/-- The parent comes first, or stores the same, wherever both store to one part of the slot. -/
def Ordered (log : List (Bool × Store)) : Prop :=
  Settled pgidCell.writes log ∧ Settled sidCell.writes log ∧ Settled execedCell.writes log ∧
    ∀ n, (execs calls).getLast? = some n → ∀ i < kExe - 1, i ≤ n.cut.length →
    Settled (exeCell i).writes log

/-! ## The parent's stores -/

variable {n : Name} {st : Store} {α : Type} {c : UInt8} {i : ℕ} {s : State}

theorem mem_setExe : st ∈ setExe n ↔ ∃ i c, (n.cut ++ [0])[i]? = some c ∧ st = .exe i c := by
  unfold setExe
  rw [List.mem_map]
  constructor
  · rintro ⟨⟨c, i⟩, hmem, rfl⟩
    exact ⟨i, c, List.mem_zipIdx_iff_getElem?.1 hmem, rfl⟩
  · rintro ⟨i, c, hc, rfl⟩
    exact ⟨(c, i), List.mem_zipIdx_iff_getElem?.2 hc, rfl⟩

theorem mem_setPgid {v : ℤ} (h : st ∈ setPgid v) : st = .pgid v := by
  unfold setPgid at h
  split_ifs at h
  · exact List.mem_singleton.1 h
  · cases h

theorem mem_setSid {v : ℤ} (h : st ∈ setSid v) : st = .sid v := by
  unfold setSid at h
  split_ifs at h
  · exact List.mem_singleton.1 h
  · cases h

theorem Epilogue.mem_stores {e : Epilogue} (h : st ∈ e.stores) :
    st = .execed false ∨ st = .host e.host ∨ st = .pgid e.pgid ∨ st = .sid e.sid ∨
      st = .ppid e.parent ∨ ∃ i c, (e.exe.cut ++ [0])[i]? = some c ∧ st = .exe i c := by
  simp only [Epilogue.stores, bind, setPpid, List.mem_append, List.mem_cons, List.not_mem_nil,
    or_false] at h
  obtain ((((rfl | rfl) | hp) | hs) | he) | rfl := h
  · exact .inl rfl
  · exact .inr (.inl rfl)
  · exact .inr (.inr (.inl (mem_setPgid hp)))
  · exact .inr (.inr (.inr (.inl (mem_setSid hs))))
  · exact .inr (.inr (.inr (.inr (.inr (mem_setExe.1 he)))))
  · exact .inr (.inr (.inr (.inr (.inl rfl))))

def Once {α : Type} (f : Store → Option α) (e : Epilogue) : Prop :=
  ∀ st ∈ e.stores, ∀ st' ∈ e.stores, ∀ u u', f st = some u → f st' = some u' → u = u'

theorem once_of {f : Store → Option α} {e : Epilogue} (v : α)
    (h : ∀ st ∈ e.stores, ∀ u, f st = some u → u = v) : Once f e := by
  intro st hst st' hst' u u' hu hu'
  rw [h st hst u hu, h st' hst' u' hu']

theorem once_pgid (e : Epilogue) : Once pgidCell.writes e := by
  refine once_of e.pgid fun st hst u hu => ?_
  obtain rfl | rfl | rfl | rfl | rfl | ⟨i, c, -, rfl⟩ := e.mem_stores hst <;> cases hu
  rfl

theorem once_sid (e : Epilogue) : Once sidCell.writes e := by
  refine once_of e.sid fun st hst u hu => ?_
  obtain rfl | rfl | rfl | rfl | rfl | ⟨i, c, -, rfl⟩ := e.mem_stores hst <;> cases hu
  rfl

theorem once_execed (e : Epilogue) : Once execedCell.writes e := by
  refine once_of false fun st hst u hu => ?_
  obtain rfl | rfl | rfl | rfl | rfl | ⟨i, c, -, rfl⟩ := e.mem_stores hst <;> cases hu
  rfl

theorem exeCell_writes : (exeCell i).writes st = some c ↔ st = .exe i c := by
  rcases st with _ | _ | _ | _ | _ | ⟨j, d⟩
  case exe =>
    show (if j = i then some d else none) = some c ↔ _
    split_ifs with hj
    · rw [hj, Option.some_inj, Store.exe.injEq]
      exact ⟨fun h => ⟨rfl, h⟩, And.right⟩
    · rw [Store.exe.injEq]
      exact ⟨nofun, fun h => absurd h.1 hj⟩
  all_goals exact ⟨nofun, nofun⟩

theorem once_exe (i : ℕ) (e : Epilogue) : Once (exeCell i).writes e := by
  refine once_of ((e.exe.cut ++ [0])[i]?.getD 0) fun st hst u hu => ?_
  obtain rfl := exeCell_writes.1 hu
  obtain h | h | h | h | h | ⟨j, c, hc, h⟩ := e.mem_stores hst
  case inr.inr.inr.inr.inr =>
    cases h
    rw [hc, Option.getD_some]
  all_goals cases h

/-! ## A run of the two -/

theorem run_keeps {I : State → Prop} (hstep : ∀ s turn, I s → I (step s turn)) (hs : I s)
    (turns : List Bool) : I (run s turns) := by
  induction turns generalizing s with
  | nil => exact hs
  | cons turn turns ih => exact ih (hstep s turn hs)

/-- What a turn does, for those who have something left to do. -/
theorem step_cases (s : State) (turn : Bool) :
    step s turn = s ∨
      (∃ st next, turn ∧ s.child = .store st next ∧
        step s turn =
        { s with slot := put s.slot st, child := next, log := s.log ++ [(true, st)] }) ∨
      (∃ get next, turn ∧ s.child = .load get next ∧
        step s turn = { s with child := next (get s.slot) }) ∨
      ∃ st rest, turn = false ∧ s.parent = st :: rest ∧
      step s turn =
        { s with slot := put s.slot st, parent := rest, log := s.log ++ [(false, st)] } := by
  cases turn with
  | true =>
    rcases hc : s.child with _ | ⟨st, next⟩ | ⟨get, next⟩
    · exact .inl (by rw [step, hc])
    · exact .inr (.inl ⟨st, next, rfl, rfl, by rw [step, hc]⟩)
    · exact .inr (.inr (.inl ⟨get, next, rfl, rfl, by rw [step, hc]⟩))
  | false =>
    rcases hp : s.parent with _ | ⟨st, rest⟩
    · exact .inl (by rw [step, hp])
    · exact .inr (.inr (.inr ⟨st, rest, rfl, rfl, by rw [step, hp]⟩))

/-- The slot is what the stores made of it, and the parent has its first ones behind it. -/
structure Traced (slot : Slot) (todo : List Store) (s : State) : Prop where
  slot : s.slot = (s.log.map Prod.snd).foldl put slot
  parent : of false s.log ++ s.parent = todo

theorem Traced.step {slot : Slot} {todo : List Store} (turn : Bool) (h : Traced slot todo s) :
    Traced slot todo (step s turn) := by
  obtain heq | ⟨st, next, -, hc, heq⟩ | ⟨get, next, -, hc, heq⟩ | ⟨st, rest, -, hp, heq⟩ :=
    step_cases s turn
  · rw [heq]
    exact h
  · rw [heq]
    refine ⟨?_, ?_⟩
    · rw [List.map_append, List.foldl_append, ← h.slot]
      rfl
    · rw [of_append]
      exact (congrArg (· ++ s.parent) (List.append_nil _)).trans h.parent
  · rw [heq]
    exact ⟨h.slot, h.parent⟩
  · rw [heq]
    refine ⟨?_, ?_⟩
    · rw [List.map_append, List.foldl_append, ← h.slot]
      rfl
    · rw [of_append, List.append_assoc]
      exact (congrArg (of false s.log ++ ·) hp.symm).trans h.parent

/-- Whatever is loaded, this is the last value the code stores. -/
def Code.Leaves {α : Type} (f : Store → Option α) : Code → Option α → Prop
  | .done, r => r = none
  | .store st next, r => ∃ r', next.Leaves f r' ∧ r = r'.or (f st)
  | .load _ next, r => ∀ x, (next x).Leaves f r

theorem Code.Leaves.stores {f : Store → Option α} {next : Code} {r : Option α} (h : next.Leaves f r)
    (l : List Store) : (Code.stores l next).Leaves f (r.or (lastWrite f l)) := by
  induction l with
  | nil => rwa [show lastWrite f [] = none from rfl, Option.or_none]
  | cons st l ih => exact ⟨_, ih, by rw [lastWrite_cons, Option.or_assoc]⟩

/-- What the child has stored and what it has still to store. -/
def Owes {α : Type} (f : Store → Option α) (r₀ : Option α) (s : State) : Prop :=
  ∃ r, s.child.Leaves f r ∧ r.or (lastWrite f (of true s.log)) = r₀

theorem Owes.step {f : Store → Option α} {r₀ : Option α} (turn : Bool) (h : Owes f r₀ s) :
    Owes f r₀ (step s turn) := by
  obtain ⟨r, hr, hall⟩ := h
  obtain heq | ⟨st, next, -, hc, heq⟩ | ⟨get, next, -, hc, heq⟩ | ⟨st, rest, -, hp, heq⟩ :=
    step_cases s turn
  · rw [heq]
    exact ⟨r, hr, hall⟩
  · rw [heq]
    rw [hc] at hr
    obtain ⟨r', hr', rfl⟩ := hr
    refine ⟨r', hr', ?_⟩
    rw [of_append, show of true [(true, st)] = [st] from rfl, lastWrite_concat, ← Option.or_assoc,
      hall]
  · rw [heq]
    rw [hc] at hr
    exact ⟨r, hr _, hall⟩
  · rw [heq]
    refine ⟨r, hr, ?_⟩
    rw [of_append, show of true [(false, st)] = [] from rfl, List.append_nil, hall]

/-! ## The name -/

theorem lastWrite_setExe (h : (n.cut ++ [0])[i]? = some c) :
    lastWrite (exeCell i).writes (setExe n) = some c := by
  rcases hlast : lastWrite (exeCell i).writes (setExe n) with _ | d
  · have hnone := lastWrite_eq_none.1 hlast (.exe i c) (mem_setExe.2 ⟨i, c, h, rfl⟩)
    rw [exeCell_writes.2 rfl] at hnone
    cases hnone
  · obtain ⟨st, hmem, hd⟩ := exists_of_lastWrite hlast
    obtain rfl := exeCell_writes.1 hd
    obtain ⟨j, d', hj, heq⟩ := mem_setExe.1 hmem
    cases heq
    exact hj.symm.trans h

theorem lastWrite_exe_of_not {l : List Store} (h : ∀ st ∈ l, ∀ c, st ≠ .exe i c) :
    lastWrite (exeCell i).writes l = none := by
  refine lastWrite_eq_none.2 fun st hst => ?_
  rcases hw : (exeCell i).writes st with _ | c
  · rfl
  · exact absurd (exeCell_writes.1 hw) (h st hst c)

theorem setPgid_no_exe (i : ℕ) (v : ℤ) : lastWrite (exeCell i).writes (setPgid v) = none :=
  lastWrite_exe_of_not fun _ hst _ heq => nomatch (mem_setPgid hst).symm.trans heq

theorem setSid_no_exe (i : ℕ) (v : ℤ) : lastWrite (exeCell i).writes (setSid v) = none :=
  lastWrite_exe_of_not fun _ hst _ heq => nomatch (mem_setSid hst).symm.trans heq

/-- Whatever the child finds in its slot, the names it stores are those of its calls. -/
theorem program_leaves (self : Number) (calls : List Call) (i : ℕ) :
    (program self calls).Leaves (exeCell i).writes
      (lastWrite (exeCell i).writes ((execs calls).flatMap setExe)) := by
  induction calls with
  | nil => exact rfl
  | cons call calls ih =>
    cases call with
    | setpgid a0 a1 =>
      show (Call.code self (program self calls) (.setpgid a0 a1)).Leaves _ _
      have hput := fun v => ih.stores (setPgid v)
      simp only [setPgid_no_exe, Option.or_none] at hput
      rw [Call.code]
      generalize (if a0 ≠ 0 then int32 a0 else self.val) = pid
      generalize (if a1 ≠ 0 then int32 a1 else pid) = pgid
      split_ifs
      · exact hput pgid
      · exact ih
    | setsid =>
      have hput := ih.stores (setSid self.val ++ setPgid self.val)
      rw [lastWrite_append, setPgid_no_exe, setSid_no_exe, Option.or_none, Option.or_none] at hput
      intro p
      dsimp only
      split_ifs
      · intro x
        dsimp only
        split_ifs
        · exact ih
        · exact hput
      · exact hput
    | execve path =>
      have hput := ih.stores (setExe path ++ markExeced)
      rw [lastWrite_append, lastWrite_exe_of_not (l := markExeced) fun st hst c heq => ?_,
        Option.none_or] at hput
      · rw [show execs (.execve path :: calls) = path :: execs calls from rfl, List.flatMap_cons,
          lastWrite_append]
        exact hput
      · exact nomatch (List.mem_singleton.1 hst).symm.trans heq

theorem takeWhile_eq_iff {l q : List UInt8} (hq : 0 ∉ q) (hlen : q.length ≤ l.length) :
    l.takeWhile (· != 0) = q ↔ ∀ i c, i < l.length → (q ++ [0])[i]? = some c → l[i]? = some c := by
  induction q generalizing l with
  | nil =>
    rcases l with _ | ⟨a, l⟩
    · exact ⟨fun _ i c hi => absurd hi (Nat.not_lt_zero i), fun _ => rfl⟩
    · constructor
      · intro h i c hi hc
        rcases i with _ | i
        · have ha : a = 0 := by
            by_contra hne
            rw [List.takeWhile_cons_of_pos (p := (· != 0)) (bne_iff_ne.2 hne)] at h
            cases h
          rw [ha]
          exact hc
        · cases hc
      · intro h
        cases h 0 0 (Nat.succ_pos _) rfl
        rfl
  | cons b q ih =>
    rcases l with _ | ⟨a, l⟩
    · exact absurd hlen (Nat.not_succ_le_zero _)
    · have hb : b ≠ 0 := fun heq => hq (heq ▸ (.head _))
      have ih := ih (fun hmem => hq (.tail _ hmem)) (Nat.le_of_succ_le_succ hlen)
      constructor
      · intro h i c hi hc
        have ha : a ≠ 0 := by
          rintro rfl
          cases h
        rw [List.takeWhile_cons_of_pos (p := (· != 0)) (bne_iff_ne.2 ha)] at h
        obtain ⟨rfl, htail⟩ := List.cons.inj h
        rcases i with _ | i
        · exact hc
        · exact ih.1 htail i c (Nat.lt_of_succ_lt_succ hi) hc
      · intro h
        cases h 0 b (Nat.succ_pos _) rfl
        rw [List.takeWhile_cons_of_pos (p := (· != 0)) (bne_iff_ne.2 hb)]
        refine congrArg (b :: ·) (ih.2 fun i c hi hc => ?_)
        exact h (i + 1) c (Nat.succ_lt_succ hi) hc

theorem exeOf_eq_iff {s : Slot} :
    exeOf s = n.cut ↔ ∀ i < kExe - 1, ∀ c, (n.cut ++ [0])[i]? = some c → s.exe i = c := by
  have hlen : ((List.range (kExe - 1)).map s.exe).length = kExe - 1 := by
    rw [List.length_map, List.length_range]
  have hcut : n.cut.length ≤ ((List.range (kExe - 1)).map s.exe).length := by
    rw [hlen]
    exact List.length_take_le ..
  have hat : ∀ i, i < kExe - 1 → ((List.range (kExe - 1)).map s.exe)[i]? = some (s.exe i) := by
    intro i hi
    rw [List.getElem?_map, List.getElem?_range hi]
    rfl
  have hnul : 0 ∉ n.cut := fun hmem => n.noNul (List.mem_of_mem_take hmem)
  rw [exeOf, takeWhile_eq_iff hnul hcut, hlen]
  constructor
  · intro h i hi c hc
    exact Option.some.inj ((hat i hi).symm.trans (h i c hi hc))
  · intro h i c hi hc
    rw [hat i hi, h i hi c hc]

/-- In every interleaving of the end of a fork with the first calls of the child, once both have
finished, the slot has what the child has set iff the parent does not store over it. -/
theorem published_iff (slot : Slot) (e : Epilogue) (self : Number) (calls : List Call)
    (turns : List Bool) (h : Finished (run (start slot e self calls) turns)) :
    Published calls (run (start slot e self calls) turns) ↔
      Ordered calls (run (start slot e self calls) turns).log := by
  have htraced : Traced slot e.stores (run (start slot e self calls) turns) :=
    run_keeps (fun s turn => Traced.step turn) ⟨rfl, rfl⟩ turns
  have howes :
    ∀ i, Owes (exeCell i).writes (lastWrite (exeCell i).writes ((execs calls).flatMap setExe))
      (run (start slot e self calls) turns) := fun i =>
    run_keeps (fun s turn => Owes.step turn) ⟨_, program_leaves self calls i, Option.or_none⟩ turns
  generalize run (start slot e self calls) turns = s at *
  have hmem : ∀ {st}, (false, st) ∈ s.log → st ∈ e.stores := by
    intro st hst
    rw [← htraced.parent]
    exact List.mem_append_left _ (mem_of.2 hst)
  have hcell : ∀ {α} (c : Cell put α), Once c.writes e →
      ((∀ v, lastWrite c.writes (of true s.log) = some v → c.get s.slot = v) ↔
        Settled c.writes s.log) := by
    intro α c honce
    rw [htraced.slot]
    exact survives_iff c slot fun st u st' u' hst hu hst' hu' =>
      honce st (hmem hst) st' (hmem hst') u u' hu hu'
  have hname : ∀ n, (execs calls).getLast? = some n → ∀ i c, (n.cut ++ [0])[i]? = some c →
      lastWrite (exeCell i).writes (of true s.log) = some c := by
    intro n hn i c hc
    obtain ⟨r, hr, hall⟩ := howes i
    rw [h.2] at hr
    cases hr
    obtain ⟨ns, hns⟩ := List.getLast?_eq_some_iff.1 hn
    rw [Option.none_or] at hall
    rw [hall, hns, List.flatMap_append, lastWrite_append, List.flatMap_singleton,
      lastWrite_setExe hc, Option.some_or]
  refine and_congr (hcell pgidCell (once_pgid e))
    (and_congr (hcell sidCell (once_sid e))
      (and_congr (hcell execedCell (once_execed e))
      (forall_congr' fun n => forall_congr' fun hn => ?_)))
  rw [exeOf_eq_iff]
  refine forall_congr' fun i => forall_congr' fun hi => ?_
  by_cases hle : i ≤ n.cut.length
  · obtain ⟨c, hc⟩ : ∃ c, (n.cut ++ [0])[i]? = some c :=
      ⟨_, List.getElem?_eq_getElem (by rw [List.length_append, List.length_singleton]; omega)⟩
    have hlast := hname n hn i c hc
    rw [← hcell (exeCell i) (once_exe i e)]
    constructor
    · intro hslot _ v hv
      cases hlast.symm.trans hv
      exact hslot c hc
    · intro hslot c' hc'
      cases hc.symm.trans hc'
      exact hslot hle c hlast
  · refine ⟨fun _ hle' => absurd hle' hle, fun _ c hc => ?_⟩
    rw [List.getElem?_eq_none (by rw [List.length_append, List.length_singleton]; omega)] at hc
    cases hc

def forked : Epilogue := ⟨101, 1, 1, ⟨[47, 98], by decide⟩, 1⟩

def execer : List Call := [.execve ⟨[47, 99], by decide⟩]

def blank : Slot := ⟨kReserved, false, 0, 0, 0, fun _ => 0⟩

def childFirst : State :=
  run (start blank forked ⟨2, by decide⟩ execer) (List.replicate 4 true ++ List.replicate 8 false)

theorem exec_flag_lost : Finished childFirst ∧ ¬Published execer childFirst := by
  refine ⟨⟨rfl, rfl⟩, fun h => ?_⟩
  cases h.2.2.1 true rfl

theorem published_iff_parentFirst :
    Finished
      (run (start blank forked ⟨2, by decide⟩ execer)
        (List.replicate 8 false ++ List.replicate 4 true)) ∧
      (Published execer
        (run (start blank forked ⟨2, by decide⟩ execer)
        (List.replicate 8 false ++ List.replicate 4 true)) ↔
        Ordered execer
        (run (start blank forked ⟨2, by decide⟩ execer)
        (List.replicate 8 false ++ List.replicate 4 true)).log) :=
  ⟨⟨rfl, rfl⟩, published_iff _ _ _ _ _ ⟨rfl, rfl⟩⟩

/-! ## A number that is given out again -/

/-- What becomes of a number: `allocate` for a fork or for a thread, a store for its process,
`release`. -/
inductive Use where
  | fork (e : Epilogue)
  | thread (host : ℤ)
  | store (st : Store)
  | release

/-- A slot that had an owner, with the fork that it has been taken for since and the stores for the
new process. -/
structure Used where
  slot : Slot
  since : Option (Epilogue × List Store) := none

def Used.step (s : Used) : Use → Used
  | .fork e => ⟨put s.slot (.host kReserved), some (e, [])⟩
  | .thread host => ⟨put s.slot (.host host), none⟩
  | .store st => ⟨put s.slot st, s.since.map fun x => (x.1, x.2 ++ [st])⟩
  | .release => ⟨put (put s.slot (.exe 0 0)) (.host 0), none⟩

/-- Group, session and parent are what was stored for the new process, and before that what its
parent hands down. -/
def Used.Clean (s : Used) : Prop := ∀ x, s.since = some x →
  orSelf self s.slot.pgid = orSelf self ((lastWrite pgidCell.writes x.2).getD x.1.pgid) ∧
  orSelf self s.slot.sid = orSelf self ((lastWrite sidCell.writes x.2).getD x.1.sid) ∧
  s.slot.ppid = (lastWrite ppidCell.writes x.2).getD x.1.parent

/-- The owner before has left what the new process gets. -/
def Leaves (s : Used) : Use → Prop
  | .fork e => orSelf self s.slot.pgid = orSelf self e.pgid ∧
      orSelf self s.slot.sid = orSelf self e.sid ∧ s.slot.ppid = e.parent
  | _ => True

theorem Used.Clean.step_iff {self : Number} {s : Used} (h : s.Clean self) (u : Use) :
    (s.step u).Clean self ↔ Leaves self s u := by
  cases u with
  | fork e => exact ⟨fun h => h _ rfl, fun h => by rintro _ ⟨⟩; exact h⟩
  | thread host => exact ⟨fun _ => trivial, fun _ => nofun⟩
  | release => exact ⟨fun _ => trivial, fun _ => nofun⟩
  | store st =>
    refine ⟨fun _ => trivial, fun _ x hx => ?_⟩
    obtain ⟨y, hy, rfl⟩ := Option.map_eq_some_iff.1 hx
    obtain ⟨h1, h2, h3⟩ := h y hy
    exact ⟨pgidCell.get_step (orSelf self) st h1, sidCell.get_step (orSelf self) st h2,
      ppidCell.get_step id st h3⟩

theorem recycled_clean_iff (self : Number) (slot : Slot) (us : List Use) :
    Along Used.step (fun s u => (s.step u).Clean self) ⟨slot, none⟩ us ↔
      Along Used.step (Leaves self) ⟨slot, none⟩ us :=
  along_iff (I := Used.Clean self) (fun _ u h => h.step_iff u) (fun _ h => by cases h) us

/-- The owner before led the group 5. -/
theorem group_left_over :
    ¬((⟨{ blank with host := 0, pgid := 5, sid := 1, ppid := 1 }, none⟩ : Used).step
        (.fork forked)).Clean ⟨5, by decide⟩ :=
  fun h => absurd (h _ rfl).1 (by decide)

end Linuxity.Hvf.Publish
