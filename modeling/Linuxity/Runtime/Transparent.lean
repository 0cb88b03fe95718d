import Linuxity.Runtime.Interp
import Linuxity.Wire.Flags

/-!
# Runtime.Transparent — the guest's registers over a call that is run with other arguments

A primitive of the backend stores changed registers at the entry stop of a call and lets it run.
At the exit stop some of them put something back.  The guest then goes on behind its call, or a
signal makes the kernel run the call again.
-/

namespace Linuxity.Runtime.Transparent

open Logic Posix Abi Wire Function List

/-- The registers of a stopped task. `rax`, `rcx` and `r11` are those of x86-64; `nr` is `orig_rax`
or `x8`. -/
inductive Reg where
  | arg (i : Fin 6)
  | rax
  | rcx
  | r11
  | nr
  | sp
  | pc
  | other (n : ℕ)
  deriving DecidableEq

abbrev RegFile := Reg → ℕ

/-- `ret`. -/
def result : Arch → Reg
  | .x8664 => .rax
  | .aarch64 => .arg 0

/-- The registers of the guest that a call keeps. -/
def keeps : Arch → Reg → Bool
  | .x8664, .rax | .x8664, .rcx | .x8664, .r11 | .x8664, .nr => false
  | .x8664, _ => true
  | .aarch64, r => r != .arg 0

def wordOf (v : ℤ) : ℕ := (v % 2 ^ 64).toNat

/-- A task at the entry stop of a call. -/
structure Stop where
  arch : Arch
  regs : RegFile
  mem : Mem
  pages : Pages

namespace Stop

def arg (t : Stop) (i : ℕ) : ℕ := if h : i < 6 then t.regs (.arg ⟨i, h⟩) else 0

def tracee (t : Stop) : Tracee := ⟨t.regs .sp, t.arg, t.mem⟩

/-- The registers with other arguments. -/
def withArgs (t : Stop) (arg : ℕ → ℕ) : RegFile
  | .arg i => arg i
  | r => t.regs r

end Stop

/-- What the kernel answers to the tracer, at the entry and at the exit of one call. -/
structure Replies extends Faults where
  /-- `PTRACE_PEEKDATA` in `poke_bytes`. -/
  prepeek : ℕ → Bool
  /-- The second register set that holds the number of the call, on aarch64. -/
  commit : Bool
  /-- `store_and_skip`. -/
  skip : Bool
  /-- Registers read and written at the exit stop. -/
  fetch : Bool
  restore : Bool

/-- The calls the backend runs with changed registers.  `retry` waits in the kernel and then has the
guest's own call, with its path in the argument `path`, dispatched again. -/
inductive Rewrite where
  | redirect (o : Order) (forceRet : Option ℤ)
  | deferred (o : Order)
  | arg (i : Fin 6) (value : ℕ)
  | sockaddr (pathAddr : ℕ) (path : Str) (lenArg : Fin 6) (newLen : ℕ)
      (addr_lt : pathAddr < addrMax)
  | interp (o : ExecOrder)
  | retry (ns : ℕ) (path : Fin 6)

/-- What is left to do at the exit stop. -/
inductive Exit where
  | plain (forceRet : Option ℤ)
  | pointBack (i : ℤ) (guestPtr : ℕ)
  | rewind

inductive Entered where
  | refused (e : Errno)
  | runs (regs : RegFile) (mem : Mem) (exit : Exit)

/-- `poke_path` into memory that is in use: the rest of the last word is kept. -/
def pokeOwn (k : Replies) (start : ℕ) (s : Str) (mem : Mem) : Bool × Mem :=
  pokeOr (fun a => k.prepeek a && k.poke a) false k.toFaults start (bytesOf s ++ [0]) mem

/-- The timeout of the wait, with the NUL that `poke_scratch` puts behind it. -/
def timespec (ns : ℕ) : List UInt8 :=
  wordBytes (ns / 1000000000) ++ wordBytes (ns % 1000000000) ++ [0]

def ppoll : Arch → ℕ
  | .x8664 => 271
  | .aarch64 => 73

/-- `ppoll` on no descriptors with the timeout at `ts`. -/
def pollArgs (ts : ℕ) (arg : ℕ → ℕ) : ℕ → ℕ :=
  setArg (setArg (setArg (setArg (setArg arg 0 0) 1 0) 2 ts) 3 0) 4 8

def enter (k : Replies) (t : Stop) : Rewrite → Entered
  | .redirect o forceRet =>
    match Runtime.redirect k.toFaults t.tracee o with
    | .refused e => .refused e
    | .executes arg mem => .runs (t.withArgs arg) mem (.plain forceRet)
  | .deferred o =>
    match redirectDeferred k.toFaults t.tracee o with
    | .refused e => .refused e
    | .executes arg mem =>
      .runs (t.withArgs arg) mem (.pointBack o.arg (if o.arg < 0 then 0 else t.arg o.arg.toNat))
  | .arg i v =>
    .runs (if k.store then t.withArgs (setArg t.arg i v) else t.regs) t.mem (.plain none)
  | .sockaddr a s i n _ =>
    match pokeOwn k a s t.mem with
    | (false, _) => .refused .efault
    | (true, mem) =>
      .runs (if k.store then t.withArgs (setArg t.arg i n) else t.regs) mem (.plain none)
  | .interp o =>
    match execThroughInterp k.toFaults t.pages t.tracee o with
    | .refused => .refused .efault
    | .goes arg mem _ => .runs (t.withArgs arg) mem (.plain none)
  | .retry ns _ =>
    let ts := scratchBelow (t.regs .sp) 32
    match pokeScratch k.toFaults ts (timespec ns) t.mem with
    | (false, _) => .refused .efault
    | (true, mem) =>
      if k.store && (t.arch == .x8664 || k.commit) then
        .runs (update (t.withArgs (pollArgs ts t.arg)) .nr (ppoll t.arch)) mem .rewind
      else .refused .eio

/-- What becomes of the call in the kernel. -/
inductive Fate where
  /-- The task ends, or another image takes its place. -/
  | gone
  /-- It returns; with `again` a signal makes the kernel run it again if the result asks for it. -/
  | returned (ret : ℤ) (rcx r11 : ℕ) (again : Bool)

/-- How it goes on for the guest. -/
inductive Finish where
  | gone
  /-- Behind its call. -/
  | resumes (regs : RegFile)
  /-- The call is dispatched again with these registers and this memory. -/
  | restarts (regs : RegFile) (mem : Mem)

/-- The registers at the exit stop. -/
def exitStop (a : Arch) (regs : RegFile) (ret : ℤ) (rcx r11 : ℕ) : RegFile :=
  match a with
  | .x8664 => update (update (update regs .rcx rcx) .r11 r11) .rax (wordOf ret)
  | .aarch64 => update regs (.arg 0) (wordOf ret)

/-- `ERESTARTSYS`, `ERESTARTNOINTR` and `ERESTARTNOHAND` in the result register. -/
def restartCode (v : ℕ) : Prop := 2 ^ 64 - 514 ≤ v ∧ v ≤ 2 ^ 64 - 512

instance (v : ℕ) : Decidable (restartCode v) := inferInstanceAs (Decidable (_ ∧ _))

/-- The first argument of a call that is run again is on aarch64 the one the guest called with,
which the kernel keeps apart. -/
def settle (t : Stop) (again : Bool) (mem : Mem) (regs : RegFile) : Finish :=
  if again ∧ restartCode (regs (result t.arch)) then
    .restarts
      (update regs (result t.arch) (match t.arch with
        | .x8664 => regs .nr | .aarch64 => t.regs (.arg 0))) mem
  else .resumes regs

def setReg (regs : RegFile) (i : ℤ) (v : ℕ) : RegFile :=
  if h : 0 ≤ i ∧ i < 6 then update regs (.arg ⟨i.toNat, by omega⟩) v else regs

/-- `finalize_exit`, and the patches of the loop before a synchronous call goes on. -/
def leave (k : Replies) (t : Stop) (ret : ℤ) (again : Bool) (regs : RegFile)
    (mem : Mem) : Exit → Finish
  | .plain forceRet =>
    settle t again mem
      (if k.fetch && k.restore then (match forceRet with
        | none => regs | some v => update regs (result t.arch) (wordOf v)) else regs)
  | .pointBack i p =>
    settle t again mem
      (if ret ≤ -512 ∧ -516 ≤ ret ∧ (k.fetch && k.restore) then setReg regs i p else regs)
  | .rewind => if k.restore then .restarts t.regs mem else settle t again mem regs

/-- One call from its entry stop on. -/
def finish (k : Replies) (t : Stop) (c : Rewrite) (fate : Fate) : Finish :=
  match enter k t c with
  | .refused e =>
    if k.skip then .resumes (update t.regs (result t.arch) (wordOf (-errnoCode e))) else .gone
  | .runs regs mem exit =>
    match fate with
    | .gone => .gone
    | .returned ret rcx r11 again => leave k t ret again (exitStop t.arch regs ret rcx r11) mem exit

/-! ## What the guest is owed -/

/-- A byte of the path that the guest gave. -/
def OwnByte (t : Stop) (x : ℕ) : Rewrite → Prop
  | .redirect o _ => 0 ≤ o.arg ∧ InStr t.mem (t.arg o.arg.toNat) x ∨
      0 ≤ o.arg2 ∧ o.path2 ≠ [] ∧ InStr t.mem (t.arg o.arg2.toNat) x
  | .deferred o => 0 ≤ o.arg ∧ InStr t.mem (t.arg o.arg.toNat) x
  | .arg _ _ => False
  | .sockaddr a _ i _ _ => a ≤ x ∧ x + 2 < a + t.arg i
  | .interp o => InStr t.mem (t.arg o.pathArg) x
  | .retry _ i => InStr t.mem (t.arg i) x

/-- Every register that a call keeps is as it was. -/
def Agrees (t : Stop) (regs : RegFile) : Prop := ∀ r, keeps t.arch r → regs r = t.regs r

/-- **Transparency** of one call. A call that is run again is the guest's own, on the guest's own
path. -/
def Owed (t : Stop) (c : Rewrite) : Finish → Prop
  | .gone => True
  | .resumes regs => Agrees t regs
  | .restarts regs mem =>
    (Agrees t regs ∧ (∀ i, regs (.arg i) = t.regs (.arg i)) ∧ regs .nr = t.regs .nr) ∧
      ∀ x, OwnByte t x c → mem x = t.mem x

/-! ## What a call does, from the kernel's answers -/

section Plan

variable (k : Replies) (t : Stop)

def Fits (start : ℕ) (s : Str) : Prop := CanSplice k.poke k.toFaults start (bytesOf s ++ [0]).length

instance (start : ℕ) (s : Str) : Decidable (Fits k start s) :=
  inferInstanceAs (Decidable (CanSplice _ _ _ _))

def FitsOwn (start : ℕ) (s : Str) : Prop :=
  CanSplice (fun a => k.prepeek a && k.poke a) k.toFaults start (bytesOf s ++ [0]).length

instance (start : ℕ) (s : Str) : Decidable (FitsOwn k start s) :=
  inferInstanceAs (Decidable (CanSplice _ _ _ _))

/-- There is a second path. -/
def Two (o : Order) : Prop := 0 ≤ o.arg2 ∧ o.path2 ≠ []

instance (o : Order) : Decidable (Two o) := inferInstanceAs (Decidable (_ ∧ _))

/-- The strings and the places they are written to. -/
def stringWrites (ps : List ℕ) (ss : List (List UInt8)) : List (ℕ × List UInt8) :=
  (ps.zip ss).map fun w => (w.1, w.2 ++ [0])

/-- The guest's argument pointers. -/
def argv (o : ExecOrder) : List ℕ :=
  readArgv t.pages t.mem (t.arg (o.pathArg + 1)) (kMaxArgs + 1) []

/-- The strings and the vector below the stack pointer. -/
def interpWrites (o : ExecOrder) : List (ℕ × List UInt8) :=
  stringWrites (o.places (t.regs .sp) (argv t o).length) o.strs ++
    [(o.arr (t.regs .sp) (argv t o).length,
      (o.vector (t.regs .sp) (argv t o) ++ [0]).flatMap wordBytes)]

/-- The guest gets an error instead of the call. -/
def Refused : Rewrite → Prop
  | .redirect o _ => Fits k (o.slot t.tracee) o.path ∧ Two o ∧ ¬Fits k (o.slot2 t.tracee) o.path2
  | .deferred _ => False
  | .arg _ _ => False
  | .sockaddr a s _ _ _ => ¬FitsOwn k a s
  | .interp o => ∃ w ∈ interpWrites t o, ¬CanCopy k.toFaults w.1 w.2.length
  | .retry ns _ =>
    okUpto k.poke (scratchBelow (t.regs .sp) 32) (words (timespec ns).length) ≠
      words (timespec ns).length ∨ k.store = false ∨ t.arch = .aarch64 ∧ k.commit = false

/-- The argument registers that are stored, and their values. -/
def sets : Rewrite → List (ℤ × ℕ)
  | .redirect o _ =>
    if Fits k (o.slot t.tracee) o.path ∧ k.store then
      (o.arg, o.slot t.tracee) :: if Two o then [(o.arg2, o.slot2 t.tracee)] else []
    else []
  | .deferred o =>
    if Fits k (o.slot t.tracee) o.path ∧ k.store then [(o.arg, o.slot t.tracee)] else []
  | .arg i v => if k.store then [(i, v)] else []
  | .sockaddr _ _ i n _ => if k.store then [(i, n)] else []
  | .interp o =>
    if k.store then
      [(o.pathArg, (o.places (t.regs .sp) (argv t o).length).headD 0),
        (o.pathArg + 1, o.arr (t.regs .sp) (argv t o).length)]
    else []
  | .retry _ _ => [(0, 0), (1, 0), (2, scratchBelow (t.regs .sp) 32), (3, 0), (4, 8)]

/-- What is written into the task. -/
def writes : Rewrite → List (ℕ × List UInt8)
  | .redirect o _ =>
    (o.slot t.tracee, spliced k.poke true k.toFaults (o.slot t.tracee) (bytesOf o.path ++ [0])) ::
      if Fits k (o.slot t.tracee) o.path ∧ Two o then
        [(o.slot2 t.tracee,
            spliced k.poke true k.toFaults (o.slot2 t.tracee) (bytesOf o.path2 ++ [0]))]
      else []
  | .deferred o =>
    [(o.slot t.tracee, spliced k.poke true k.toFaults (o.slot t.tracee) (bytesOf o.path ++ [0]))]
  | .arg _ _ => []
  | .sockaddr a s _ _ _ =>
    [(a, spliced (fun a => k.prepeek a && k.poke a) false k.toFaults a (bytesOf s ++ [0]))]
  | .interp o => interpWrites t o
  | .retry ns _ => [(scratchBelow (t.regs .sp) 32, filled true (timespec ns))]

/-- What is left to do when the call returns. -/
def exitOf : Rewrite → Exit
  | .redirect _ forceRet => .plain forceRet
  | .deferred o => .pointBack o.arg (if o.arg < 0 then 0 else t.arg o.arg.toNat)
  | .arg _ _ | .sockaddr _ _ _ _ _ | .interp _ => .plain none
  | .retry _ _ => .rewind

def setAll (regs : RegFile) (ws : List (ℤ × ℕ)) : RegFile :=
  ws.foldl (fun r w => setReg r w.1 w.2) regs

/-- The registers the call runs with. -/
def runRegs (c : Rewrite) : RegFile :=
  match c with
  | .retry _ _ => update (setAll t.regs (sets k t c)) .nr (ppoll t.arch)
  | _ => setAll t.regs (sets k t c)

end Plan

/-! ## Registers -/

section Registers

variable {t : Stop} {regs regs' : RegFile} {ws : List (ℤ × ℕ)} {w : ℤ × ℕ} {r : Reg}

theorem keeps_result (a : Arch) : keeps a (result a) = false := by
  cases a <;> rfl

theorem agrees_congr (h : ∀ r, keeps t.arch r → regs' r = regs r) :
    Agrees t regs' ↔ Agrees t regs :=
  forall₂_congr fun r hr => by rw [h r hr]

theorem update_result_of_keeps {v : ℕ} (hr : keeps t.arch r) :
    update regs (result t.arch) v r = regs r := by
  refine update_of_ne ?_ _ _
  rintro rfl
  rw [keeps_result] at hr
  cases hr

theorem exitStop_of_keeps {a : Arch} {ret : ℤ} {rcx r11 : ℕ} (hr : keeps a r) :
    exitStop a regs ret rcx r11 r = regs r := by
  cases a with
  | x8664 =>
    have hne : r ≠ .rax ∧ r ≠ .r11 ∧ r ≠ .rcx := by
      refine ⟨?_, ?_, ?_⟩ <;> rintro rfl <;> cases hr
    rw [exitStop, update_of_ne hne.1, update_of_ne hne.2.1, update_of_ne hne.2.2]
  | aarch64 => exact update_of_ne (by rintro rfl; cases hr) _ _

theorem exitStop_nr (a : Arch) (ret : ℤ) (rcx r11 : ℕ) :
    exitStop a regs ret rcx r11 .nr = regs .nr := by
  cases a <;> rfl

theorem exitStop_result (a : Arch) (ret : ℤ) (rcx r11 : ℕ) :
    exitStop a regs ret rcx r11 (result a) = wordOf ret := by
  cases a <;> simp [exitStop, result]

/-- The pair sets this register. -/
def Hits (w : ℤ × ℕ) (r : Reg) : Prop := ∃ h : 0 ≤ w.1 ∧ w.1 < 6, r = .arg ⟨w.1.toNat, by omega⟩

theorem setReg_hit (h : Hits w r) : setReg regs w.1 w.2 r = w.2 := by
  obtain ⟨h, rfl⟩ := h
  rw [setReg, dif_pos h, update_self]

theorem setReg_miss (h : ¬Hits w r) : setReg regs w.1 w.2 r = regs r := by
  rw [setReg]
  split_ifs with hi
  · exact update_of_ne (fun hr => h ⟨hi, hr⟩) _ _
  · rfl

theorem setAll_miss (h : ∀ w ∈ ws, ¬Hits w r) : setAll regs ws r = regs r := by
  induction ws generalizing regs with
  | nil => rfl
  | cons w ws ih =>
    rw [forall_mem_cons] at h
    exact (ih h.2).trans (setReg_miss h.1)

/-- No register is set twice. -/
def Apart (ws : List (ℤ × ℕ)) : Prop := ws.Pairwise fun a b => 0 ≤ a.1 → a.1 ≠ b.1

theorem setAll_hit (hd : Apart ws) (hw : w ∈ ws) (h : Hits w r) : setAll regs ws r = w.2 := by
  induction ws generalizing regs with
  | nil => cases hw
  | cons v ws ih =>
    obtain ⟨hv, hd⟩ := pairwise_cons.1 hd
    rcases mem_cons.1 hw with rfl | hw
    · show setAll (setReg regs w.1 w.2) ws r = w.2
      refine (setAll_miss fun u hu hits => ?_).trans (setReg_hit h)
      obtain ⟨h1, rfl⟩ := h
      obtain ⟨h2, heq⟩ := hits
      have := congrArg Fin.val (Reg.arg.inj heq)
      exact hv u hu h1.1 (by dsimp only at this; omega)
    · exact ih hd hw

/-- The register does not count, or has the value already. -/
def Same (t : Stop) (i : ℤ) (v : ℕ) : Prop :=
  ¬(0 ≤ i ∧ i < 6) ∨ t.arch = .aarch64 ∧ i = 0 ∨ t.arg i.toNat = v

theorem arg_eq (t : Stop) (i : Fin 6) : t.arg i = t.regs (.arg i) := dif_pos i.2

theorem agrees_setAll (hd : Apart ws) : Agrees t (setAll t.regs ws) ↔ ∀ w ∈ ws, Same t w.1 w.2 := by
  constructor
  · intro h w hw
    refine or_iff_not_imp_left.2 fun hi => or_iff_not_imp_left.2 fun hx0 => ?_
    have hi := not_not.1 hi
    have hits : Hits w (.arg ⟨w.1.toNat, by omega⟩) := ⟨hi, rfl⟩
    have hkept : keeps t.arch (.arg ⟨w.1.toNat, by omega⟩) := by
      cases harch : t.arch with
      | x8664 => rfl
      | aarch64 =>
        refine bne_iff_ne.2 fun heq => hx0 ⟨harch, ?_⟩
        have := congrArg Fin.val (Reg.arg.inj heq)
        have : w.1.toNat = 0 := this
        omega
    rw [← setAll_hit hd hw hits, h _ hkept]
    exact arg_eq t ⟨w.1.toNat, by omega⟩
  · intro h r hr
    by_cases hany : ∃ w ∈ ws, Hits w r
    · obtain ⟨w, hw, hits⟩ := hany
      rw [setAll_hit hd hw hits]
      obtain ⟨hi, rfl⟩ := hits
      rcases h w hw with hout | ⟨harch, h0⟩ | hsame
      · exact absurd hi hout
      · rw [harch] at hr
        exact absurd (congrArg Reg.arg (Fin.ext (show w.1.toNat = 0 by omega))) (bne_iff_ne.1 hr)
      · rw [← hsame]
        exact (arg_eq t ⟨w.1.toNat, by omega⟩)
    · exact setAll_miss fun w hw hits => hany ⟨w, hw, hits⟩

theorem withArgs_arg (t : Stop) : t.withArgs t.arg = t.regs := by
  funext r
  cases r with
  | arg i => exact arg_eq t i
  | _ => rfl

theorem withArgs_setArg (t : Stop) (arg : ℕ → ℕ) (i : ℤ) (v : ℕ) :
    t.withArgs (setArg arg i v) = setReg (t.withArgs arg) i v := by
  funext r
  by_cases hits : Hits (i, v) r
  · rw [show setReg (t.withArgs arg) i v r = v from setReg_hit hits]
    obtain ⟨h, rfl⟩ := hits
    exact setArg_self h.1 h.2
  · rw [show setReg (t.withArgs arg) i v r = t.withArgs arg r from setReg_miss hits]
    cases r with
    | arg j =>
      refine setArg_ne (j := (j : ℤ)) (by omega) fun hj => hits ⟨by dsimp only; omega, ?_⟩
      exact congrArg Reg.arg (Fin.ext (by dsimp only; omega))
    | _ => rfl

end Registers

/-! ## What the primitives do -/

section Enter

variable {f : Faults} {k : Replies} {t : Stop} {c : Rewrite} {mem : Mem}

theorem writeStrs_iff {ps : List ℕ} {ss : List (List UInt8)} (hps : ∀ p ∈ ps, p < addrMax) :
    ((writeStrs f ps ss mem).1 ↔ ∀ w ∈ stringWrites ps ss, CanCopy f w.1 w.2.length) ∧
      ((writeStrs f ps ss mem).1 → (writeStrs f ps ss mem).2 = laid (stringWrites ps ss) mem) := by
  induction ps generalizing ss mem with
  | nil => exact ⟨⟨fun _ => forall_mem_nil _, fun _ => rfl⟩, fun _ => rfl⟩
  | cons p ps ih =>
    cases ss with
    | nil => exact ⟨⟨fun _ => forall_mem_nil _, fun _ => rfl⟩, fun _ => rfl⟩
    | cons s ss =>
      have hwrites : stringWrites (p :: ps) (s :: ss) = (p, s ++ [0]) :: stringWrites ps ss := rfl
      rw [writeStrs, copyOut_eq (hps p (.head _)), hwrites]
      by_cases hcan : CanCopy f p (s ++ [0]).length
      · rw [decide_eq_true hcan]
        obtain ⟨hiff, hmem⟩ :=
          @ih (putBytes mem p ((s ++ [0]).take (copyReach f p (s ++ [0]).length))) ss
          fun q hq => hps q (.tail _ hq)
        rw [forall_mem_cons]
        refine ⟨hiff.trans (and_iff_right hcan).symm, fun h => (hmem h).trans ?_⟩
        rw [hcan.take_copyReach]
        rfl
      · rw [decide_eq_false hcan]
        exact ⟨⟨by rintro ⟨⟩, fun h => absurd (h _ (.head _)) hcan⟩, by rintro ⟨⟩⟩

/-- Registers that are stored only if the kernel takes them. -/
theorem withArgs_stored (arg : ℕ → ℕ) {ws : List (ℤ × ℕ)} (h : t.withArgs arg = setAll t.regs ws) :
    t.withArgs (if k.store then arg else t.arg) = setAll t.regs (if k.store then ws else []) := by
  split_ifs
  · exact h
  · exact withArgs_arg t

theorem withArgs_one (i : ℤ) (v : ℕ) : t.withArgs (setArg t.arg i v) = setAll t.regs [(i, v)] := by
  rw [withArgs_setArg, withArgs_arg]
  rfl

theorem withArgs_two (i j : ℤ) (u v : ℕ) :
    t.withArgs (setArg (setArg t.arg i u) j v) = setAll t.regs [(i, u), (j, v)] := by
  rw [withArgs_setArg, withArgs_setArg, withArgs_arg]
  rfl

/-- What a primitive comes to: an error, or the call with these registers and this memory. -/
def Enters (k : Replies) (t : Stop) (c : Rewrite) : Prop :=
  (Refused k t c ∧ ∃ e, enter k t c = .refused e) ∨
    ¬Refused k t c ∧ enter k t c = .runs (runRegs k t c) (laid (writes k t c) t.mem) (exitOf t c)

theorem enters_redirect (o : Order) (forceRet : Option ℤ) : Enters k t (.redirect o forceRet) := by
  have hfirst := @pokePath_eq k.toFaults (o.slot t.tracee) t.mem (scratchBelow_lt _ _) o.path
  have hsecond :=
    fun mem => @pokePath_eq k.toFaults (o.slot2 t.tracee) mem (scratchBelow_lt _ _) o.path2
  unfold Enters
  rw [enter, redirect, show t.tracee.mem = t.mem from rfl, show t.tracee.arg = t.arg from rfl,
    hfirst]
  unfold Refused runRegs sets writes
  by_cases h1 : Fits k (o.slot t.tracee) o.path
  · rw [decide_eq_true (show CanSplice _ _ _ _ from h1)]
    dsimp only
    by_cases htwo : Two o
    · rw [if_pos (show 0 ≤ o.arg2 ∧ o.path2 ≠ [] from htwo), hsecond]
      by_cases h2 : Fits k (o.slot2 t.tracee) o.path2
      · refine .inr ⟨fun h => h.2.2 h2, ?_⟩
        rw [decide_eq_true (show CanSplice _ _ _ _ from h2)]
        simp only [h1, htwo, true_and, and_self, if_true]
        rw [withArgs_stored _ (withArgs_two _ _ _ _)]
        rfl
      · refine .inl ⟨⟨h1, htwo, h2⟩, .efault, ?_⟩
        rw [decide_eq_false (show ¬CanSplice _ _ _ _ from h2)]
    · refine .inr ⟨fun h => htwo h.2.1, ?_⟩
      rw [if_neg (show ¬(0 ≤ o.arg2 ∧ o.path2 ≠ []) from htwo)]
      simp only [h1, htwo, true_and, and_false, if_false]
      rw [withArgs_stored _ (withArgs_one _ _)]
      rfl
  · refine .inr ⟨fun h => h1 h.1, ?_⟩
    rw [decide_eq_false (show ¬CanSplice _ _ _ _ from h1)]
    simp only [h1, false_and, if_false]
    rw [withArgs_arg]
    rfl

theorem enters_deferred (o : Order) : Enters k t (.deferred o) := by
  have hpoke := @pokePath_eq k.toFaults (o.slot t.tracee) t.mem (scratchBelow_lt _ _) o.path
  refine .inr ⟨id, ?_⟩
  rw [enter, redirectDeferred, show t.tracee.mem = t.mem from rfl,
    show t.tracee.arg = t.arg from rfl, hpoke]
  unfold runRegs sets writes
  by_cases h1 : Fits k (o.slot t.tracee) o.path
  · rw [decide_eq_true (show CanSplice _ _ _ _ from h1)]
    simp only [h1, true_and]
    rw [withArgs_stored _ (withArgs_one _ _)]
    rfl
  · rw [decide_eq_false (show ¬CanSplice _ _ _ _ from h1)]
    simp only [h1, false_and, if_false]
    rw [withArgs_arg]
    rfl

theorem withArgs_stored' (i : ℤ) (v : ℕ) :
    (if k.store then t.withArgs (setArg t.arg i v) else t.regs) =
      setAll t.regs (if k.store then [(i, v)] else []) := by
  split_ifs
  · exact withArgs_one i v
  · rfl

theorem enters_sockaddr (a : ℕ) (s : Str) (i : Fin 6) (n : ℕ) (ha : a < addrMax) :
    Enters k t (.sockaddr a s i n ha) := by
  have hpoke :=
    @pokeOr_eq (fun a => k.prepeek a && k.poke a) false k.toFaults a (bytesOf s ++ [0]) t.mem
    (fun a h => k.poke_user a (Bool.and_eq_true_iff.1 h).2) ha
  unfold Enters
  rw [enter, pokeOwn, hpoke]
  by_cases h : FitsOwn k a s
  · rw [decide_eq_true (show CanSplice _ _ _ _ from h)]
    refine .inr ⟨not_not_intro h, ?_⟩
    rw [withArgs_stored']
    rfl
  · rw [decide_eq_false (show ¬CanSplice _ _ _ _ from h)]
    exact .inl ⟨h, .efault, rfl⟩

theorem putAll_lt {start : ℕ} (hstart : start < addrMax) (ss : List (List UInt8)) :
    ∀ p ∈ (putAll start ss).1, p < addrMax := by
  induction ss generalizing start with
  | nil => exact nofun
  | cons s ss ih =>
    rw [putAll_cons, forall_mem_cons]
    exact ⟨hstart, ih (Nat.mod_lt _ (by decide))⟩

theorem enters_interp (o : ExecOrder) : Enters k t (.interp o) := by
  obtain ⟨hiff, hmem⟩ :=
    @writeStrs_iff k.toFaults t.mem (o.places (t.regs .sp) (argv t o).length) o.strs
    (putAll_lt base_lt _)
  have hvec : vectorOut k.toFaults t.tracee o (argv t o) = _ := copyOut_eq arr_lt
  have hall : (strsOut k.toFaults t.tracee o (argv t o)).1 ∧
      (vectorOut k.toFaults t.tracee o (argv t o)).1 ↔
      ∀ w ∈ interpWrites t o, CanCopy k.toFaults w.1 w.2.length := by
    rw [interpWrites, forall_mem_append, forall_mem_singleton, hvec]
    exact and_congr hiff decide_eq_true_iff
  unfold Enters
  rw [enter, @exec_eq k.toFaults t.pages t.tracee o (argv t o) rfl]
  by_cases hok : ∀ w ∈ interpWrites t o, CanCopy k.toFaults w.1 w.2.length
  · refine .inr ⟨fun ⟨w, hw, hno⟩ => hno (hok w hw), ?_⟩
    have hlaid :
        (vectorOut k.toFaults t.tracee o (argv t o)).2 = laid (interpWrites t o) t.mem := by
      have htake := (hok _ (mem_append_right _ (.head _))).take_copyReach
      rw [hvec, interpWrites, laid, foldl_append]
      exact congrArg₂ (putBytes · _ ·) (hmem (hall.2 hok).1) htake
    rw [if_pos (hall.2 hok), hlaid]
    dsimp only
    rw [show t.tracee.arg = t.arg from rfl, withArgs_stored _ (withArgs_two _ _ _ _)]
    rfl
  · refine .inl ⟨by simpa [Refused] using hok, .efault, ?_⟩
    rw [if_neg (mt hall.1 hok)]

theorem enters_retry (ns : ℕ) (i : Fin 6) : Enters k t (.retry ns i) := by
  have hpoke :=
    @pokeWords_eq k.poke true (scratchBelow (t.regs .sp) 32) _ (timespec ns) t.mem userMax_lt
    k.poke_user
    (scratchBelow_lt _ _)
  unfold Enters
  rw [enter, pokeScratch, hpoke]
  by_cases h : okUpto k.poke (scratchBelow (t.regs .sp) 32) (words (timespec ns).length) =
    words (timespec ns).length
  · rw [decide_eq_true h]
    split_ifs with hgo
    · refine .inr ⟨?_, ?_⟩
      · rintro (hne | hs | ⟨ha, hc⟩)
        · exact hne h
        · simp [hs] at hgo
        · simp [ha, hc] at hgo
      · rw [h, take_of_length_le (length_filled _).le]
        unfold runRegs sets pollArgs
        rw [withArgs_setArg, withArgs_setArg, withArgs_setArg, withArgs_setArg, withArgs_setArg,
          withArgs_arg]
        rfl
    · refine .inl ⟨.inr ?_, .eio, rfl⟩
      cases hs : k.store with
      | false => exact .inl rfl
      | true =>
        refine .inr ?_
        cases ha : t.arch <;> simp_all
  · rw [decide_eq_false h]
    exact .inl ⟨.inl h, .efault, rfl⟩

theorem enters (k : Replies) (t : Stop) (c : Rewrite) : Enters k t c := by
  cases c with
  | redirect o forceRet => exact enters_redirect o forceRet
  | deferred o => exact enters_deferred o
  | arg i v =>
    refine .inr ⟨id, ?_⟩
    rw [enter, withArgs_stored']
    rfl
  | sockaddr a s i n ha => exact enters_sockaddr a s i n ha
  | interp o => exact enters_interp o
  | retry ns i => exact enters_retry ns i

theorem sets_apart (k : Replies) (t : Stop) (c : Rewrite) : Apart (sets k t c) := by
  cases c with
  | redirect o forceRet =>
    rw [sets]
    split_ifs
    · exact pairwise_pair.2 o.arg_ne
    · exact pairwise_singleton _ _
    · exact .nil
  | deferred | arg | sockaddr =>
    rw [sets]
    split_ifs
    · exact pairwise_singleton _ _
    · exact .nil
  | interp o =>
    rw [sets]
    split_ifs
    · exact pairwise_pair.2 fun _ => by dsimp only; omega
    · exact .nil
  | retry ns i => simp [sets, Apart]

end Enter

/-! ## Where the writes lie -/

/-- There is stack below the pointer for all that the call lays there. -/
def Room (t : Stop) : Rewrite → Prop
  | .redirect o _ => 256 + ((bytesOf o.path).length + 1) ≤ t.regs .sp ∧
      (Two o → 256 + ((bytesOf o.path2).length + 1) ≤ o.slot t.tracee)
  | .deferred o => 256 + ((bytesOf o.path).length + 1) ≤ t.regs .sp
  | .arg _ _ | .sockaddr _ _ _ _ _ => False
  | .interp o => 512 + (o.strBytes + (o.narg (argv t o).length + 1) * 8 + 64) ≤ t.regs .sp
  | .retry _ _ => 256 + 32 ≤ t.regs .sp

/-- The writes lie below the red zone under `sp`, also if filled up to whole words, and do not
meet. -/
def InDeadStack (sp : ℕ) (ws : List (ℕ × List UInt8)) : Prop :=
  (∀ w ∈ ws, w.1 + 8 * words w.2.length + 128 ≤ sp) ∧ ws.Pairwise fun a b =>
    a.1 + a.2.length ≤ b.1 ∨ b.1 + b.2.length ≤ a.1

section Room

variable {k : Replies} {t : Stop} {c : Rewrite}

theorem path_below {top a : ℕ} {s : Str} (htop : top < addrMax)
    (h : 256 + ((bytesOf s).length + 1) ≤ top) :
    scratchBelow top ((bytesOf s).length + 1) +
      8 * words (spliced k.poke true k.toFaults a (bytesOf s ++ [0])).length + 128 ≤ top := by
  have hslot := scratchBelow_le htop (.inl h)
  have hlen := @length_spliced_le k.poke k.toFaults a (bytesOf s ++ [0])
  rw [length_append, length_singleton] at hlen
  unfold words at *
  omega

theorem interpWrites_pieces (t : Stop) (o : ExecOrder) :
    (interpWrites t o).map (fun w => (w.1, w.2.length)) =
      o.pieces (t.regs .sp) (argv t o).length := by
  rw [interpWrites, ExecOrder.pieces, map_append, stringWrites, map_map, zip_map_right,
    map_singleton, length_vector_bytes]
  congr 2
  funext w
  exact Prod.ext rfl length_append

theorem writes_inDeadStack (hsp : t.regs .sp < addrMax) (hroom : Room t c) :
    InDeadStack (t.regs .sp) (writes k t c) := by
  cases c with
  | redirect o forceRet =>
    have h1 := @path_below k _ (o.slot t.tracee) _ hsp hroom.1
    rw [writes]
    split_ifs with htwo
    · have h2 := @path_below k _ (o.slot2 t.tracee) _ (scratchBelow_lt _ _) (hroom.2 htwo.2)
      refine ⟨forall_mem_cons.2 ⟨h1, forall_mem_singleton.2 ?_⟩, pairwise_pair.2 (.inr ?_)⟩
      all_goals
        unfold Order.slot2 Order.slot words at *
        dsimp only [Stop.tracee] at *
        omega
    · exact ⟨forall_mem_singleton.2 h1, pairwise_singleton _ _⟩
  | deferred o => exact ⟨forall_mem_singleton.2 (path_below hsp hroom), pairwise_singleton _ _⟩
  | arg | sockaddr => exact hroom.elim
  | interp o =>
    obtain ⟨hpair, hbelow⟩ := pieces_below hsp hroom
    rw [← interpWrites_pieces, pairwise_map] at hpair
    refine ⟨fun w hw => ?_, hpair⟩
    have := hbelow _ (interpWrites_pieces t o ▸ mem_map_of_mem hw)
    unfold words
    omega
  | retry ns i =>
    refine ⟨forall_mem_singleton.2 ?_, pairwise_singleton _ _⟩
    have := scratchBelow_le hsp (.inl hroom)
    rw [length_filled, timespec]
    simp only [length_append, length_wordBytes, length_singleton, words]
    omega

theorem laid_of_apart {ws : List (ℕ × List UInt8)} {mem : Mem} {x : ℕ}
    (h : ∀ w ∈ ws, w.1 + w.2.length ≤ x) : laid ws mem x = mem x := by
  induction ws generalizing mem with
  | nil => rfl
  | cons w ws ih =>
    rw [forall_mem_cons] at h
    exact (ih h.2).trans (putBytes_of_apart (.inr h.1))

/-- **Dead stack.** What a call lays below the stack pointer is in dead stack, and all other memory
is as it was. -/
theorem scratch_in_dead_stack (k : Replies) (t : Stop) (c : Rewrite) (hsp : t.regs .sp < addrMax)
    (hroom : Room t c) :
    InDeadStack (t.regs .sp) (writes k t c) ∧ ∀ regs mem exit, enter k t c = .runs regs mem exit →
      ∀ x, t.regs .sp ≤ x + 128 → mem x = t.mem x := by
  have hdead := @writes_inDeadStack k t c hsp hroom
  refine ⟨hdead, fun regs mem exit henter x hx => ?_⟩
  obtain ⟨-, e, hrefused⟩ | ⟨-, hruns⟩ := enters k t c
  · cases hrefused.symm.trans henter
  · cases hruns.symm.trans henter
    refine laid_of_apart fun w hw => ?_
    have := hdead.1 w hw
    unfold words at this
    omega

end Room

/-! ## Transparency -/

/-- The backend puts the guest's own values back. -/
def PutBack (k : Replies) (ret : ℤ) : Rewrite → Prop
  | .deferred _ => ret ≤ -512 ∧ -516 ≤ ret ∧ (k.fetch && k.restore)
  | .retry _ _ => k.restore
  | _ => False

instance (k : Replies) (ret : ℤ) (c : Rewrite) : Decidable (PutBack k ret c) := by
  cases c <;> unfold PutBack <;> infer_instance

/-- The result register when the task goes on. -/
def shown (k : Replies) (t : Stop) (ret : ℤ) : Rewrite → ℕ
  | .redirect _ (some v) => if k.fetch && k.restore then wordOf v else wordOf ret
  | .deferred o =>
    if PutBack k ret (.deferred o) ∧ t.arch = .aarch64 ∧ o.arg = 0 then t.arg 0 else wordOf ret
  | _ => wordOf ret

/-- The call is dispatched again. -/
def Reruns (k : Replies) (t : Stop) (c : Rewrite) (ret : ℤ) (again : Bool) : Prop :=
  (match c with | .retry _ _ => k.restore | _ => False) ∨ again ∧ restartCode (shown k t ret c)

/-- The call that runs has the number of the guest's. -/
def NumberKept (t : Stop) : Rewrite → Prop
  | .retry _ _ => t.regs .nr = ppoll t.arch
  | _ => True

/-- The call is refused; or its registers are put back or do not differ, and none of the writes
changes a byte of the guest's path if the call is dispatched again. -/
def Harmless (k : Replies) (t : Stop) (c : Rewrite) : Fate → Prop
  | .gone => True
  | .returned ret _ _ again => Refused k t c ∨
      ((PutBack k ret c ∨ (∀ w ∈ sets k t c, Same t w.1 w.2) ∧
          (t.arch = .aarch64 → NumberKept t c)) ∧
        (Reruns k t c ret again → (PutBack k ret c ∨ NumberKept t c) ∧
          ∀ x, OwnByte t x c → laid (writes k t c) t.mem x = t.mem x))

section Transparency

variable {k : Replies} {t : Stop} {c : Rewrite} {again : Bool} {mem : Mem} {regs : RegFile}
  {ret : ℤ} {rcx r11 : ℕ}

/-- A call that the kernel runs again has the guest's arguments if the kept registers are the
guest's. -/
theorem owed_settle :
    Owed t c (settle t again mem regs) ↔
      Agrees t regs ∧ (again ∧ restartCode (regs (result t.arch)) →
        regs .nr = t.regs .nr ∧ ∀ x, OwnByte t x c → mem x = t.mem x) := by
  rw [settle]
  split_ifs with hcode
  · rw [Owed, agrees_congr fun r hr => update_result_of_keeps hr,
      update_of_ne (by cases t.arch <;> nofun)]
    constructor
    · rintro ⟨⟨hagree, -, hnr⟩, hbytes⟩
      exact ⟨hagree, fun _ => ⟨hnr, hbytes⟩⟩
    · rintro ⟨hagree, hrest⟩
      refine ⟨⟨hagree, fun i => ?_, (hrest hcode).1⟩, (hrest hcode).2⟩
      by_cases hi : Reg.arg i = result t.arch
      · cases harch : t.arch with
        | x8664 =>
          rw [harch] at hi
          cases hi
        | aarch64 =>
          rw [harch] at hi
          rw [hi]
          exact update_self _ _ _
      · rw [update_of_ne hi]
        refine hagree _ ?_
        cases harch : t.arch with
        | x8664 => rfl
        | aarch64 =>
          rw [harch] at hi
          exact bne_iff_ne.2 hi
  · exact ⟨fun h => ⟨h, fun h' => absurd h' hcode⟩, And.left⟩

theorem setAll_nr (regs : RegFile) (ws : List (ℤ × ℕ)) : setAll regs ws .nr = regs .nr :=
  setAll_miss fun _ _ ⟨_, h⟩ => by cases h

theorem agrees_exitStop : Agrees t (exitStop t.arch regs ret rcx r11) ↔ Agrees t regs :=
  agrees_congr fun _ hr => exitStop_of_keeps hr

theorem owed_plain (hregs : runRegs k t c = setAll t.regs (sets k t c)) {regs : RegFile}
    (hkept : ∀ r, keeps t.arch r → regs r = exitStop t.arch (runRegs k t c) ret rcx r11 r)
    (hnr : regs .nr = (runRegs k t c) .nr) :
    Owed t c (settle t again mem regs) ↔
      (∀ w ∈ sets k t c, Same t w.1 w.2) ∧
      (again ∧ restartCode (regs (result t.arch)) → ∀ x, OwnByte t x c → mem x = t.mem x) := by
  rw [owed_settle, agrees_congr hkept, agrees_exitStop, hregs, agrees_setAll (sets_apart k t c),
    hnr, hregs, setAll_nr]
  simp

/-- The calls that the backend does not touch again. -/
def Plain : Rewrite → Prop
  | .deferred _ | .retry _ _ => False
  | _ => True

theorem Plain.harmless (hc : Plain c) {P : Prop} :
    ((PutBack k ret c ∨ (∀ w ∈ sets k t c, Same t w.1 w.2) ∧ (t.arch = .aarch64 → NumberKept t c)) ∧
        (Reruns k t c ret again → (PutBack k ret c ∨ NumberKept t c) ∧ P)) ↔
      (∀ w ∈ sets k t c, Same t w.1 w.2) ∧ (again ∧ restartCode (shown k t ret c) → P) := by
  have hback : ¬PutBack k ret c := by cases c <;> first | exact id | exact hc.elim
  have hnum : NumberKept t c := by cases c <;> first | exact True.intro | exact hc.elim
  have hrerun : Reruns k t c ret again ↔ again ∧ restartCode (shown k t ret c) := by
    cases c <;> first | exact or_iff_right id | exact hc.elim
  rw [hrerun]
  simp only [hback, hnum, false_or, or_true, true_and, implies_true, and_true]

theorem leave_plain_none :
    leave k t ret again regs mem (.plain none) = settle t again mem regs := by
  rw [leave, ite_self]

theorem owed_plain_none (hregs : runRegs k t c = setAll t.regs (sets k t c))
    (hshown : shown k t ret c = wordOf ret) :
    Owed t c (leave k t ret again (exitStop t.arch (runRegs k t c) ret rcx r11) mem (.plain none)) ↔
      (∀ w ∈ sets k t c, Same t w.1 w.2) ∧
      (again ∧ restartCode (shown k t ret c) → ∀ x, OwnByte t x c → mem x = t.mem x) := by
  rw [leave_plain_none, owed_plain hregs (fun _ _ => rfl) (exitStop_nr _ _ _ _), exitStop_result,
    hshown]

theorem owed_redirect (o : Order) (forceRet : Option ℤ) (hc : c = .redirect o forceRet) :
    Owed t c
      (leave k t ret again (exitStop t.arch (runRegs k t c) ret rcx r11) mem (.plain forceRet)) ↔
      (∀ w ∈ sets k t c, Same t w.1 w.2) ∧
      (again ∧ restartCode (shown k t ret c) → ∀ x, OwnByte t x c → mem x = t.mem x) := by
  have hregs : runRegs k t c = setAll t.regs (sets k t c) := by rw [hc]; rfl
  have hshown := @exitStop_result (runRegs k t c) t.arch ret rcx r11
  have hnr := @exitStop_nr (runRegs k t c) t.arch ret rcx r11
  cases forceRet with
  | none => exact owed_plain_none hregs (by rw [hc]; rfl)
  | some v =>
    rw [leave]
    cases hok : k.fetch && k.restore with
    | false =>
      rw [if_neg (by simp), @owed_plain k t c again mem ret rcx r11 hregs _ (fun _ _ => rfl) hnr,
        hshown]
      subst hc
      rw [shown, hok, if_neg (by simp)]
    | true =>
      rw [if_pos rfl, @owed_plain k t c again mem ret rcx r11 hregs _
        (fun _ hr => update_result_of_keeps hr) ?_, update_self]
      · subst hc
        rw [shown, hok, if_pos rfl]
      · rw [update_of_ne (by cases t.arch <;> nofun), hnr]

/-- With the guest's pointer put back every register is as it was. -/
theorem pointBack_agrees (o : Order) {r : Reg} (hr : keeps t.arch r ∨ r = .nr) :
    setReg (exitStop t.arch (runRegs k t (.deferred o)) ret rcx r11) o.arg
      (if o.arg < 0 then 0 else t.arg o.arg.toNat) r = t.regs r := by
  by_cases hits : Hits (o.arg, if o.arg < 0 then 0 else t.arg o.arg.toNat) r
  · rw [setReg_hit hits]
    obtain ⟨h, rfl⟩ := hits
    rw [if_neg (by omega)]
    exact arg_eq t ⟨o.arg.toNat, by omega⟩
  · rw [setReg_miss hits]
    have hexit : exitStop t.arch (runRegs k t (.deferred o)) ret rcx r11 r =
        runRegs k t (.deferred o) r := by
      rcases hr with hr | rfl
      · exact exitStop_of_keeps hr
      · exact exitStop_nr _ _ _ _
    rw [hexit]
    refine setAll_miss fun w hw ⟨h, hr'⟩ => hits ?_
    rw [sets] at hw
    split_ifs at hw with hgo
    · obtain rfl := mem_singleton.1 hw
      exact ⟨h, hr'⟩
    · cases hw

theorem pointBack_result (o : Order) (hback : PutBack k ret (.deferred o)) :
    setReg (exitStop t.arch (runRegs k t (.deferred o)) ret rcx r11) o.arg
      (if o.arg < 0 then 0 else t.arg o.arg.toNat) (result t.arch) =
      shown k t ret (.deferred o) := by
  by_cases hx0 : t.arch = .aarch64 ∧ o.arg = 0
  · rw [show shown k t ret (.deferred o) = t.arg 0 from if_pos ⟨hback, hx0⟩, hx0.1, hx0.2]
    exact setReg_hit (w := (0, t.arg 0)) ⟨⟨le_rfl, show (0 : ℤ) < 6 by decide⟩, rfl⟩
  · rw [show shown k t ret (.deferred o) = wordOf ret from if_neg fun h => hx0 h.2]
    refine (setReg_miss (w := (o.arg, if o.arg < 0 then 0 else t.arg o.arg.toNat))
        fun ⟨h, hr⟩ => hx0 ?_).trans
      (exitStop_result _ _ _ _)
    cases harch : t.arch with
    | x8664 =>
      rw [harch] at hr
      cases hr
    | aarch64 =>
      rw [harch] at hr
      have hzero : 0 = o.arg.toNat := congrArg Fin.val (Reg.arg.inj hr)
      exact ⟨rfl, by omega⟩

theorem owed_deferred (o : Order) (hc : c = .deferred o) :
    Owed t c (leave k t ret again (exitStop t.arch (runRegs k t c) ret rcx r11) mem (exitOf t c)) ↔
      (PutBack k ret c ∨ ∀ w ∈ sets k t c, Same t w.1 w.2) ∧
        (again ∧ restartCode (shown k t ret c) → ∀ x, OwnByte t x c → mem x = t.mem x) := by
  have hshown := @exitStop_result (runRegs k t c) t.arch ret rcx r11
  subst hc
  rw [exitOf, leave]
  by_cases hback : PutBack k ret (.deferred o)
  · rw [if_pos (show _ ∧ _ from hback), owed_settle]
    have hagree : Agrees t (setReg (exitStop t.arch (runRegs k t (.deferred o)) ret rcx r11) o.arg
        (if o.arg < 0 then 0 else t.arg o.arg.toNat)) := fun r hr => pointBack_agrees o (.inl hr)
    rw [pointBack_agrees o (.inr rfl)]
    rw [pointBack_result o hback]
    simp [hagree, hback]
  · rw [if_neg (show ¬(_ ∧ _) from hback),
      @owed_plain k t (.deferred o) again mem ret rcx r11 rfl _ (fun _ _ => rfl)
      (exitStop_nr _ _ _ _), hshown, shown, if_neg fun h => hback h.1, or_iff_right hback]

theorem owed_retry (ns : ℕ) (i : Fin 6) (hc : c = .retry ns i) :
    Owed t c (leave k t ret again (exitStop t.arch (runRegs k t c) ret rcx r11) mem .rewind) ↔
      (k.restore ∨ (∀ w ∈ sets k t c, Same t w.1 w.2) ∧ (t.arch = .aarch64 → NumberKept t c)) ∧
      (Reruns k t c ret again → (k.restore ∨ NumberKept t c) ∧ ∀ x, OwnByte t x c →
        mem x = t.mem x) := by
  have hshown := @exitStop_result (runRegs k t c) t.arch ret rcx r11
  have hnr : runRegs k t (.retry ns i) .nr = ppoll t.arch := by
    unfold runRegs
    exact update_self _ _ _
  subst hc
  rw [leave, Reruns]
  cases hr : k.restore with
  | true =>
    rw [if_pos rfl, Owed]
    simp [Agrees]
  | false =>
    have hagree : Agrees t (runRegs k t (.retry ns i)) ↔
        Agrees t (setAll t.regs (sets k t (.retry ns i))) ∧
        (t.arch = .aarch64 → t.regs .nr = ppoll t.arch) := by
      cases harch : t.arch with
      | x8664 =>
        refine (agrees_congr fun r hkeep => update_of_ne ?_ _ _).trans (and_iff_left nofun).symm
        rintro rfl
        rw [harch] at hkeep
        cases hkeep
      | aarch64 =>
        constructor
        · intro h
          have hself := h .nr (by rw [harch]; rfl)
          rw [hnr, harch] at hself
          refine ⟨fun r hkeep => ?_, fun _ => hself.symm⟩
          by_cases hrnr : r = .nr
          · rw [hrnr, setAll_nr]
          · exact (update_of_ne hrnr _ _).symm.trans (h r hkeep)
        · rintro ⟨h, hself⟩ r hkeep
          by_cases hrnr : r = .nr
          · rw [hrnr, hnr, harch, hself rfl]
          · exact (update_of_ne hrnr _ _).trans (h r hkeep)
    rw [if_neg (by simp), owed_settle, agrees_exitStop, hagree, agrees_setAll (sets_apart _ _ _),
      hshown, exitStop_nr, hnr]
    simp [shown, NumberKept, eq_comm]

theorem owed_leave :
    Owed t c (leave k t ret again (exitStop t.arch (runRegs k t c) ret rcx r11) mem (exitOf t c)) ↔
      (PutBack k ret c ∨ (∀ w ∈ sets k t c, Same t w.1 w.2) ∧
        (t.arch = .aarch64 → NumberKept t c)) ∧
      (Reruns k t c ret again → (PutBack k ret c ∨ NumberKept t c) ∧ ∀ x, OwnByte t x c →
        mem x = t.mem x) := by
  cases c with
  | redirect o forceRet =>
    rw [Plain.harmless, exitOf, owed_redirect o forceRet rfl]
    exact True.intro
  | deferred o =>
    rw [owed_deferred o rfl, show Reruns k t (.deferred o) ret again ↔ _ from or_iff_right id]
    simp [NumberKept]
  | arg | sockaddr | interp =>
    rw [Plain.harmless, exitOf, owed_plain_none rfl rfl]
    exact True.intro
  | retry ns i => exact owed_retry ns i rfl

/-- **Transparency.** The guest finds its registers and its path exactly if the call is harmless. -/
theorem rewritten_call_transparent_iff (k : Replies) (t : Stop) (c : Rewrite) (fate : Fate) :
    Owed t c (finish k t c fate) ↔ Harmless k t c fate := by
  rw [finish]
  obtain ⟨href, e, henter⟩ | ⟨href, henter⟩ := enters k t c
  · -- the entry registers are stored again, and the call does not run
    have howed :
        Owed t c (if k.skip then .resumes (update t.regs (result t.arch) (wordOf (-errnoCode e)))
          else .gone) := by
      split_ifs
      · exact fun r hr => update_result_of_keeps hr
      · trivial
    rw [henter]
    refine iff_of_true howed ?_
    cases fate with
    | gone => trivial
    | returned ret rcx r11 again => exact .inl href
  · rw [henter]
    cases fate with
    | gone => exact Iff.rfl
    | returned ret rcx r11 again =>
      rw [Harmless, or_iff_right href]
      exact owed_leave

end Transparency

/-! ## One call -/

def noRefusals : Replies where
  toFaults := noFaults
  prepeek _ := true
  commit := true
  skip := true
  fetch := true
  restore := true

/-- `openat` on x86-64 with `/x` at 4096 in `rsi`. -/
def openStop : Stop where
  arch := .x8664
  regs r := match r with | .sp => 65536 | .nr => 257 | .arg 1 => 4096 | _ => 0
  mem := openTask.mem
  pages := pagesTo7

/-- `renameat` gets both of its paths. -/
def renameOrder : Order :=
  { openOrder with arg2 := 3, path2 := "/srv/up/y", arg2_lt := by decide, arg_ne := by decide }

theorem scratch_in_dead_stack_rename :
    InDeadStack 65536 (writes noRefusals openStop (.redirect renameOrder none)) ∧
      InDeadStack 65536 (writes noRefusals openStop (.retry 5 1)) :=
  ⟨(scratch_in_dead_stack noRefusals openStop (.redirect renameOrder none) (by decide)
      ⟨by decide +kernel, fun _ => by decide +kernel⟩).1,
    (scratch_in_dead_stack noRefusals openStop _ (by decide) (by unfold Room; decide)).1⟩

/-- The guest goes on with its descriptor, and `rsi` points below its stack. -/
theorem openat_changes_rsi :
    ∃ regs, finish noRefusals openStop (.redirect openOrder none) (.returned 3 0 0 false) =
        .resumes regs ∧ regs .rax = 3 ∧ regs (.arg 1) = 65264 ∧ openStop.regs (.arg 1) = 4096 ∧
      ¬Owed openStop (.redirect openOrder none)
      (finish noRefusals openStop (.redirect openOrder none) (.returned 3 0 0 false)) := by
  have hrefused : ¬Refused noRefusals openStop (.redirect openOrder none) :=
    fun h => absurd h.2.1 (by decide)
  have hsets : sets noRefusals openStop (.redirect openOrder none) = [(1, 65264)] := by
    decide +kernel
  have hfinish : finish noRefusals openStop (.redirect openOrder none) (.returned 3 0 0 false) =
      .resumes (exitStop .x8664 (setAll openStop.regs [(1, 65264)]) 3 0 0) := by
    rw [finish, ((enters _ _ _).resolve_left fun h => hrefused h.1).2]
    show leave _ _ _ _
      (exitStop _ (setAll openStop.regs (sets noRefusals openStop (.redirect openOrder none))) _ _
        _) _ (.plain none) = _
    rw [leave_plain_none, hsets, settle, if_neg (by simp)]
    rfl
  refine ⟨_, hfinish, by decide, by decide, rfl, ?_⟩
  rw [hfinish]
  intro h
  exact absurd (h (.arg 1) rfl) (by decide)

end Linuxity.Runtime.Transparent
