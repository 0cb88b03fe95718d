import Linuxity.Abi.Forward
import Linuxity.Abi.Reach
import Linuxity.Kernel.Merged

/-!
# Abi.Dots — directories in front of a dot

The kernel walks a path one component at a time, so whatever stands in front of a `.` or a `..` has
to be a directory.  The dispatcher writes the dots away before it looks anything up, and makes up
for it with a walk of its own.  That walk ends at the first dot, asks only about host files, and is
not made by every call.
-/

namespace Linuxity.Abi

open Posix Wire Kernel Logic World List Option

/-! ## What stands in front of a dot -/

def headText (raw : Str) (i : Nat) : Str :=
  (if isAbs raw then slash else []) ++ List.intercalate slash ((comps raw).take i)

def showsDir (w : World) (abs : Str) : Bool :=
  let pc := (classify abs false true .copyLeaf w).1
  match pc.realm with
  | .hostBacked => hostPathIsDir w.host pc.hostPath
  | .virtualFile => (produce w (virtualOf pc abs)).toOption.any (·.isDir)
  | .absent => false

namespace Operand

variable (op : Operand) (t : Task) (r : Regs) (w : World)

def dirPath : Str := (op.dir.map fun k => dirOfFd w (r.arg k)).getD []

/-- The guest path that a text is followed to in place of the operand. -/
def follows (text : Str) : Option Str :=
  (absolutize w text (op.dirPath r w)).map fun abs =>
    if op.expand.isSome then expandProcLinks t w (bindProcSelf t abs) true else abs

/-- The first `i` components lead to a directory that is there. -/
def DirBefore (i : Nat) : Prop :=
  ∃ abs, op.follows t r w (headText (t.cstr r op.arg) i) = some abs ∧ showsDir w abs

def DotAt (i : Nat) : Prop := ∃ c, (comps (t.cstr r op.arg))[i]? = some c ∧ isDot c

def walkBase : Str :=
  if isAbs (t.cstr r op.arg) then slash
  else if op.dirPath r w ≠ [] then op.dirPath r w
  else if w.cwd = [] then slash else w.cwd

end Operand

/-! ## The walk that the dispatcher makes -/

/-- The calls whose handlers walk to the first dot, and whether they take register 0 for the
descriptor of the directory. -/
def dotSite : Sysno → Option Bool
  | .open_ | .creat | .stat | .lstat | .access | .readlink | .mkdir | .mknod | .rmdir | .unlink
  | .truncate | .utimes | .utime | .chmod | .rename | .link | .symlink => some false
  | .openat | .openat2 | .newfstatat | .statx | .faccessat | .faccessat2 | .readlinkat | .mkdirat
  | .mknodat | .unlinkat | .utimensat | .futimesat | .fchmodat | .fchmodat2 | .renameat
  | .renameat2 | .linkat | .symlinkat => some true
  | _ => none

/-- The call that works on two paths. -/
structure Pair where
  fst : Nat
  snd : Nat
  at_ : Bool
  moveMeta : Bool
  linkFlags : Option Nat := none
  renameFlags : Nat := 0

def pairOf (r : Regs) : Sysno → Option Pair
  | .rename => some { fst := 0, snd := 1, at_ := false, moveMeta := true }
  | .renameat => some { fst := 1, snd := 3, at_ := true, moveMeta := true }
  | .renameat2 =>
    some { fst := 1, snd := 3, at_ := true, moveMeta := true, renameFlags := uint32 (r.arg 4) }
  | .link => some { fst := 0, snd := 1, at_ := false, moveMeta := false }
  | .linkat =>
    some { fst := 1, snd := 3, at_ := true, moveMeta := false, linkFlags := some (r.arg 4) }
  | _ => none

namespace Pair

variable (p : Pair) (t : Task) (r : Regs) (w : World)

def src : Option Str := resolveArg t r p.fst p.at_ true w

def dst : Option Str := resolveSecond t r p.snd p.at_ w

/-- Both names are classified before the first walk. -/
def asked : (PathClass × PathClass) × World :=
  prepared p.moveMeta ((p.src t r w).getD []) ((p.dst t r w).getD []) w

/-- The source is an open file, and no path is walked. -/
def fromFd : Bool := (linkSourceFd t r p.fst p.at_ p.linkFlags w).any (·.any (0 ≤ ·))

/-- The call gets to its paths: none is empty, and no exception ends it. -/
structure Begun : Prop where
  fst : p.fromFd t r w = false → emptyPathArg t r p.fst = false ∧ p.src t r w ≠ none
  snd : emptyPathArg t r p.snd = false ∧ p.dst t r w ≠ none

/-- The first path does not end the call, so that the kernel gets to the second one. -/
structure Passes : Prop where
  dots : (dotPrefixError t r p.fst p.at_ (p.asked t r w).2).1 = none
  loop : (guestPrefixLoop p.fst ((p.src t r w).getD []) (p.asked t r w).2).1 = none
  there : linkSrcGone (p.asked t r w).2.host p.moveMeta (p.asked t r w).1.1 = false

end Pair

section Handler

variable (t : Task) (r : Regs) (sc : Sysno) (w : World)

/-- The state in which the handler walks. -/
def walkState : World := ((pairOf r sc).map fun p => (p.asked t r w).2).getD w

def fromFd : Bool := (pairOf r sc).any (·.fromFd t r w)

/-- What the handler finds on its walk to the first dot of an operand. -/
def walked (op : Operand) : Option Errno :=
  (dotSite sc).bind fun at_ =>
    if fromFd t r sc w then none else (dotPrefixError t r op.arg at_ (walkState t r sc w)).1

/-- The other arguments do not end the call before its paths are looked at. -/
def Begun : Prop :=
  match sc with
  | .readlink => positive (r.arg 2)
  | .readlinkat => positive (r.arg 3)
  | .symlink | .symlinkat => emptyPathArg t r 0 = false
  | _ => ∀ p, pairOf r sc = some p → p.Begun t r w

/-- The kernel gets to this path of the call. -/
def Reached (op : Operand) : Prop :=
  ∀ p, pairOf r sc = some p → op.arg = p.snd → p.fromFd t r w = false → p.Passes t r w

end Handler

/-- The kernel gets the path as it is written, and walks it by itself. -/
def handedOn (t : Task) (r : Regs) (sc : Sysno) (w : World) : Bool :=
  sc == .newfstatat && atDirfdUnresolvable w r (t.cstr r 1)

/-! ## The property -/

def problem (w : World) (abs : Str) : Option Errno :=
  dirProblem w.host (classify abs false true .copyLeaf w).1

def walkText (start : Str) (cs : List Str) : Str := cs.foldl joinComp start

def lead (raw : Str) : List Str := (comps raw).takeWhile (!isDot ·)

inductive OnWay (start raw : Str) : Str → Prop
  | start : OnWay start raw start
  | comp {cs : List Str} (h0 : cs ≠ []) (hcs : cs <+: lead raw) :
      OnWay start raw (normalizePath (walkText start cs))

/-- The way is barred for a reason that is not about a directory being there. -/
structure Barred (w : World) (start raw : Str) (e : Errno) : Prop where
  reason : e = .eacces ∨ e = .eloop ∨ e = .enametoolong
  place : ∃ p, OnWay start raw p ∧ problem w p = some e

def WalkError (t : Task) (r : Regs) (op : Operand) (w : World) (e : Errno) : Prop :=
  e = .enoent ∨ e = .enotdir ∨ Barred w (op.walkBase t r w) (t.cstr r op.arg) e

/-- The call goes past a dot only behind a directory; elsewhere the error of the walk is its
answer. -/
def DotsHold (t : Task) (r : Regs) (sc : Sysno) (w : World) : Prop :=
  handedOn t r sc w = false → Begun t r sc w → ∀ op ∈ operands r sc, Reached t r sc w op →
    ∀ i, op.DotAt t r i → ¬op.DirBefore t r w i →
      ∃ e, walked t r sc w op = some e ∧ (serve t r sc w).1 = .fail e ∧ WalkError t r op w e

/-! ## The condition -/

/-- The way to the first dot leads past host directories up to a component that stops with `e`. -/
structure StopsAt (w : World) (start raw : Str) (cs : List Str) (e : Errno) : Prop where
  nonempty : cs ≠ []
  onWay : cs <+: lead raw
  passed : ∀ ds, ds ≠ [] → ds <+: cs → ds ≠ cs →
    problem w (normalizePath (walkText start ds)) = none
  stops : problem w (normalizePath (walkText start cs)) = some e

/-- The path is one dot, and its directory cannot be searched. -/
structure Unsearchable (w : World) (start raw : Str) : Prop where
  dot : ∃ c, comps raw = [c] ∧ isDot c
  denied : (classify start false true .copyLeaf w).1.realm = .hostBacked ∧
    (classify start false true .copyLeaf w).1.hostPath ≠ [] ∧
    noSearch w.host (classify start false true .copyLeaf w).1.hostPath

/-- The handler's own walk, from `start`, finds the error `e` before it gets to the first dot. -/
def Finds (w : World) (start raw : Str) (e : Errno) : Prop :=
  (∃ cs, StopsAt w start raw cs e) ∨ Unsearchable w start raw ∧ e = .eacces

/-- Every dot of the operand has a directory in front of it, or the handler walks and finds an error
on the way to the first one. -/
def DotsMet (t : Task) (r : Regs) (sc : Sysno) (w : World) : Prop :=
  handedOn t r sc w = false → Begun t r sc w → ∀ op ∈ operands r sc, Reached t r sc w op →
    (∀ i, op.DotAt t r i → op.DirBefore t r w i) ∨
    fromFd t r sc w = false ∧ ∃ at_ e, dotSite sc = some at_ ∧
      Finds (walkState t r sc w) (walkStart r (t.cstr r op.arg) at_ (walkState t r sc w))
        (t.cstr r op.arg) e ∧ WalkError t r op w e

/-! ## The walk -/

section Walk

variable {w : World} {start raw : Str} {e : Errno} {arg : Nat}

theorem dotWalk_cons (w : World) (arg : Nat) (c : Str) (cs : List Str) (cur : Str) :
    (dotWalk arg (c :: cs) cur w).1 = (problem w (normalizePath (joinComp cur c))).or
      (dotWalk arg cs (joinComp cur c) w).1 := by
  have hask := (ask_looks arg (normalizePath (joinComp cur c)) true .copyLeaf).keeps w
  rw [dotWalk, Act.bind_apply]
  generalize hw : (ask arg (normalizePath (joinComp cur c)) false true .copyLeaf w).2 = w' at hask ⊢
  have hp : dirProblem w'.host (ask arg (normalizePath (joinComp cur c)) false true .copyLeaf w).1 =
      problem w (normalizePath (joinComp cur c)) := by rw [hask.host]; rfl
  rw [onHost, Act.read_bind, hp]
  rcases problem w (normalizePath (joinComp cur c)) with _ | e
  · rw [none_or]
    exact (dotWalk_looks arg cs _).value hask
  · rfl

/-- The walk stops at the first component with a problem. -/
theorem dotWalk_eq_some (w : World) (arg : Nat) (cs : List Str) (cur : Str) :
    (dotWalk arg cs cur w).1 = some e ↔
      ∃ ds, ds ≠ [] ∧ ds <+: cs ∧
      (∀ ds', ds' ≠ [] → ds' <+: ds → ds' ≠ ds →
        problem w (normalizePath (walkText cur ds')) = none) ∧
      problem w (normalizePath (walkText cur ds)) = some e := by
  induction cs generalizing cur with
  | nil =>
    refine ⟨fun h => (by cases h), ?_⟩
    rintro ⟨ds, h0, hds, -⟩
    exact absurd (prefix_nil.1 hds) h0
  | cons c cs ih =>
    rw [dotWalk_cons]
    rcases hp : problem w (normalizePath (joinComp cur c)) with _ | e'
    · rw [none_or, ih]
      constructor
      · rintro ⟨ds, h0, hds, hpass, hstop⟩
        refine ⟨c :: ds, cons_ne_nil _ _, cons_prefix_cons.2 ⟨rfl, hds⟩, ?_, hstop⟩
        intro ds' h0' hds' hne
        obtain ⟨c', ds', rfl⟩ := exists_cons_of_ne_nil h0'
        obtain ⟨rfl, htail⟩ := cons_prefix_cons.1 hds'
        rcases ds' with _ | ⟨d, ds'⟩
        · exact hp
        · exact hpass (d :: ds') (cons_ne_nil _ _) htail fun h => hne (by rw [h])
      · rintro ⟨ds, h0, hds, hpass, hstop⟩
        obtain ⟨c', ds, rfl⟩ := exists_cons_of_ne_nil h0
        obtain ⟨rfl, htail⟩ := cons_prefix_cons.1 hds
        have hne : ds ≠ [] := by
          rintro rfl
          exact absurd (hp.symm.trans hstop) (by simp)
        refine ⟨ds, hne, htail, fun ds' h0' hds' hne' => ?_, hstop⟩
        exact hpass (c' :: ds') (cons_ne_nil _ _) (cons_prefix_cons.2 ⟨rfl, hds'⟩)
          fun h => hne' (List.cons.inj h).2
    · rw [some_or]
      constructor
      · intro h
        cases h
        refine ⟨[c], cons_ne_nil _ _, cons_prefix_cons.2 ⟨rfl, nil_prefix⟩,
          fun ds' h0' hds' hne => ?_, hp⟩
        obtain ⟨c', ds', rfl⟩ := exists_cons_of_ne_nil h0'
        obtain ⟨rfl, htail⟩ := cons_prefix_cons.1 hds'
        obtain rfl := prefix_nil.1 htail
        exact absurd rfl hne
      · rintro ⟨ds, h0, hds, hpass, hstop⟩
        obtain ⟨c', ds, rfl⟩ := exists_cons_of_ne_nil h0
        obtain ⟨rfl, -⟩ := cons_prefix_cons.1 hds
        rcases ds with _ | ⟨d, ds⟩
        · exact hp.symm.trans hstop
        · have hfirst :=
            hpass [c'] (cons_ne_nil _ _) (cons_prefix_cons.2 ⟨rfl, nil_prefix⟩) (by simp)
          exact absurd (hp.symm.trans hfirst) (by simp)

theorem dotOnly_eq_some (w : World) (arg : Nat) (base : Str) :
    (dotOnly arg base w).1 = some e ↔
      ((classify base false true .copyLeaf w).1.realm = .hostBacked ∧
        (classify base false true .copyLeaf w).1.hostPath ≠ [] ∧
        noSearch w.host (classify base false true .copyLeaf w).1.hostPath) ∧ e = .eacces := by
  have hask := (ask_looks arg base true .copyLeaf).keeps w
  rw [dotOnly, Act.bind_apply]
  rw [show (ask arg base false true .copyLeaf w).1 = (classify base false true .copyLeaf w).1 from
    rfl]
  rw [onHost, Act.read_bind, hask.host, Act.pure_apply]
  simp only [ite_none_right_eq_some, Bool.and_eq_true, beq_iff_eq, bne_iff_ne, ne_eq, and_assoc,
    Option.some.injEq]
  exact and_congr_right fun _ => and_congr_right fun _ => and_congr_right fun _ => eq_comm

theorem lead_of_head {raw : Str} (h : (comps raw).head?.any isDot) : lead raw = [] := by
  unfold lead
  rcases hc : comps raw with _ | ⟨c, cs⟩
  · rfl
  · rw [hc] at h
    exact takeWhile_cons_of_neg (by simpa using h)

/-- What the handler's walk finds, if the path has a dot. -/
theorem dotPrefixError_eq_some {t : Task} {r : Regs} {at_ : Bool}
    (hdot : (comps (t.cstr r arg)).any isDot) : (dotPrefixError t r arg at_ w).1 = some e ↔
    Finds w (walkStart r (t.cstr r arg) at_ w) (t.cstr r arg) e := by
  unfold dotPrefixError Finds
  rw [if_neg (by simpa using hdot)]
  by_cases hhead : (comps (t.cstr r arg)).head?.any isDot
  · have hno : ¬∃ cs, StopsAt w (walkStart r (t.cstr r arg) at_ w) (t.cstr r arg) cs e := by
      rintro ⟨cs, hs⟩
      exact hs.nonempty (prefix_nil.1 (lead_of_head hhead ▸ hs.onWay))
    rw [if_pos hhead]
    split_ifs with hlen
    · refine ⟨fun h => (by cases h), ?_⟩
      rintro (h | ⟨⟨⟨c, hc, -⟩, -⟩, -⟩)
      · exact absurd h hno
      · rw [hc] at hlen
        exact absurd hlen (by simp)
    · rw [Act.read_bind, dotOnly_eq_some]
      have hone : ∃ c, comps (t.cstr r arg) = [c] ∧ isDot c := by
        rcases hc : comps (t.cstr r arg) with _ | ⟨c, cs⟩
        · simp [hc] at hhead
        · rw [hc] at hhead hlen
          rcases cs with _ | ⟨d, cs⟩
          · exact ⟨c, rfl, by simpa using hhead⟩
          · simp at hlen
      exact ⟨fun h => .inr ⟨⟨hone, h.1⟩, h.2⟩,
        fun h => h.elim (fun h => absurd h hno) fun h => ⟨h.1.denied, h.2⟩⟩
  · rw [if_neg hhead, Act.read_bind, dotWalk_eq_some]
    constructor
    · rintro ⟨cs, h0, hcs, hpass, hstop⟩
      exact .inl ⟨cs, h0, hcs, hpass, hstop⟩
    · rintro (⟨cs, h0, hcs, hpass, hstop⟩ | ⟨⟨⟨c, hc, hd⟩, -⟩, -⟩)
      · exact ⟨cs, h0, hcs, hpass, hstop⟩
      · exact absurd (by simp [hc, hd]) hhead

end Walk

/-! ## The calls -/

section Calls

variable {t : Task} {r : Regs} {sc : Sysno} {w : World} {op : Operand} {e : Errno}

theorem walked_eq_some {i : Nat} (h : op.DotAt t r i) :
    walked t r sc w op = some e ↔ fromFd t r sc w = false ∧ ∃ at_, dotSite sc = some at_ ∧
      Finds (walkState t r sc w) (walkStart r (t.cstr r op.arg) at_ (walkState t r sc w))
        (t.cstr r op.arg) e := by
  obtain ⟨c, hc, hd⟩ := h
  have hdot : (comps (t.cstr r op.arg)).any isDot := any_eq_true.2 ⟨c, mem_of_getElem? hc, hd⟩
  simp only [walked, bind_eq_some_iff, ← dotPrefixError_eq_some hdot]
  cases fromFd t r sc w <;> simp

/-- An empty path has no dot. -/
theorem cstr_ne_nil {arg : Nat} {at_ : Bool} (h : (dotPrefixError t r arg at_ w).1 = some e) :
    t.cstr r arg ≠ [] := by
  intro h0
  unfold dotPrefixError at h
  rw [h0] at h
  cases h

theorem emptyPathArg_of_ne {arg : Nat} (flags : Option Nat) (h : t.cstr r arg ≠ []) :
    emptyPathArg t r arg flags = false := by
  simp [emptyPathArg, h]

theorem emptyCstrArg_of_ne {arg : Nat} (h : t.cstr r arg ≠ []) : emptyCstrArg t r arg = false := by
  simp [emptyCstrArg, h]

section Stops

variable {arg : Nat} {at_ : Bool} (h : (dotPrefixError t r arg at_ w).1 = some e)
include h

theorem pathOpenFlags_stops (flags : Nat) : (pathOpenFlags t r arg at_ flags w).1 = .fail e := by
  unfold pathOpenFlags
  rw [if_neg (cstr_ne_nil h), refuseIf_refused h]

theorem pathStat_stops (follow : Bool)
    (hat : (at_ && atDirfdUnresolvable w r (t.cstr r arg)) = false) :
    (pathStat t r arg at_ follow w).1 = .fail e := by
  have hsyn : ¬pathSyntax (t.cstr r arg) = .empty := by
    unfold pathSyntax
    rw [if_neg (cstr_ne_nil h)]
    split_ifs <;> exact fun hc => by cases hc
  unfold pathStat
  rw [if_neg hsyn, Act.read_bind, if_neg (by simpa using hat), refuseIf_refused h]

theorem pathAt_stops : (pathAt t r arg at_ w).1 = .fail e := by
  unfold pathAt
  rw [if_neg (cstr_ne_nil h), refuseIf_refused h]

theorem doReadlink_stops (hcap : positive (r.arg (arg + 2)) = true) :
    (doReadlink t r arg at_ w).1 = .fail e := by
  unfold doReadlink
  rw [if_neg (cstr_ne_nil h), if_neg (by simp [hcap]), refuseIf_refused h]

theorem pathMut_stops (wi : WriteIntent) (sp rm mk : Bool) :
    (pathMut t r arg at_ wi sp rm mk w).1 = .fail e := by
  unfold pathMut
  rw [if_neg (by simp [emptyPathArg_of_ne none (cstr_ne_nil h)]), refuseIf_refused h]

theorem doUtimes_stops (flags : Option Nat) : (doUtimes t r arg at_ flags w).1 = .fail e := by
  have hnull : nullPathArg r arg = false := by
    by_contra hn
    exact cstr_ne_nil h (cstr_of_null (.inl (by simpa using hn)))
  unfold doUtimes
  rw [if_neg (by simp [hnull, emptyCstrArg_of_ne (cstr_ne_nil h)])]
  exact pathMut_stops h _ _ _ _

theorem doChmod_stops (wf : Bool) : (doChmod t r arg at_ wf w).1 = .fail e := by
  unfold doChmod
  rw [if_neg (by simp [emptyCstrArg_of_ne (cstr_ne_nil h)]),
    if_neg (by simp [emptyPathArg_of_ne none (cstr_ne_nil h)]), refuseIf_refused h]

theorem pathSymlink_stops {target : Nat} (ht : emptyPathArg t r target = false) :
    (pathSymlink t r target arg at_ w).1 = .fail e := by
  unfold pathSymlink
  rw [if_neg (by simp [emptyPathArg_of_ne none (cstr_ne_nil h)]), if_neg (by simp [ht]),
    refuseIf_refused h]

end Stops

theorem pathStatx_stops (h : (dotPrefixError t r 1 true w).1 = some e) :
    (pathStatx t r w).1 = .fail e := by
  unfold pathStatx
  rw [if_neg (by simp [cstr_ne_nil h]), if_neg (by simp [emptyPathArg_of_ne none (cstr_ne_nil h)]),
    refuseIf_refused h]

section Pairs

variable {p : Pair}

/-- A call on two paths that has begun gets to its checks. -/
theorem pathMut2_checks (hb : p.Begun t r w) (hfd : p.fromFd t r w = false) :
    ∃ w', Alike (p.asked t r w).2 w' ∧
      pathMut2 t r p.fst p.snd p.at_ p.moveMeta p.linkFlags p.renameFlags w =
        pairChecked t r p.fst p.snd p.at_ p.moveMeta p.renameFlags ((p.src t r w).getD [])
          ((p.dst t r w).getD []) (p.asked t r w).1.1 (p.asked t r w).1.2 w' := by
  obtain ⟨src, hs⟩ := ne_none_iff_exists'.1 (hb.fst hfd).2
  obtain ⟨dst, hd⟩ := ne_none_iff_exists'.1 hb.snd.2
  have hgiven : (emptyPathArg t r p.fst || emptyPathArg t r p.snd) = false := by
    rw [(hb.fst hfd).1, hb.snd.1]
    rfl
  obtain ⟨fd, hlink, hfd⟩ : ∃ fd, linkSourceFd t r p.fst p.at_ p.linkFlags w = some fd ∧
      fd.any (0 ≤ ·) = false := by
    unfold Pair.fromFd at hfd
    rcases hl : linkSourceFd t r p.fst p.at_ p.linkFlags w with _ | fd
    · unfold linkSourceFd at hl
      rw [show resolveArg t r p.fst p.at_ true w = some src from hs] at hl
      split at hl
      · cases hl
      · split_ifs at hl
        cases hl
    · exact ⟨fd, rfl, by simpa [hl] using hfd⟩
  obtain ⟨hv, hw⟩ := askPair_prepared p.fst p.snd p.moveMeta src dst w
  unfold Pair.asked
  rw [hs, hd]
  refine ⟨_, hw, ?_⟩
  rw [pathMut2, Act.read_bind, hlink]
  dsimp only
  rw [if_neg (by simp [hfd]), if_neg (by simp [hgiven]),
    withPath_apply (show resolveArg t r p.fst p.at_ true w = some src from hs),
    withPath_apply (show resolveSecond t r p.snd p.at_ w = some dst from hd), Act.bind_apply, hv]
  rfl

theorem pathMut2_stops_fst (hb : p.Begun t r w) (hfd : p.fromFd t r w = false)
    (h : (dotPrefixError t r p.fst p.at_ (p.asked t r w).2).1 = some e) :
    (pathMut2 t r p.fst p.snd p.at_ p.moveMeta p.linkFlags p.renameFlags w).1 = .fail e := by
  obtain ⟨w', hw, hrun⟩ := pathMut2_checks hb hfd
  rw [hrun, pairChecked,
    refuseIf_refused (((dotPrefixError_looks t r p.fst p.at_).value hw).trans h)]

theorem pathMut2_stops_snd (hb : p.Begun t r w) (hfd : p.fromFd t r w = false) (hp : p.Passes t r w)
    (h : (dotPrefixError t r p.snd p.at_ (p.asked t r w).2).1 = some e) :
    (pathMut2 t r p.fst p.snd p.at_ p.moveMeta p.linkFlags p.renameFlags w).1 = .fail e := by
  obtain ⟨w', hw, hrun⟩ := pathMut2_checks hb hfd
  have hdots := dotPrefixError_looks t r p.fst p.at_
  have hloop := guestPrefixLoop_looks p.fst ((p.src t r w).getD [])
  have hw1 := hw.trans (hdots.keeps w')
  have hw2 := hw1.trans (hloop.keeps _)
  rw [hrun, pairChecked, refuseIf_apply ((hdots.value hw).trans hp.dots),
    refuseIf_apply ((hloop.value hw1).trans hp.loop), onHost_bind, hw2.host, hp.there]
  rw [refuseIf_refused (e := e)]
  exact ((dotPrefixError_looks t r p.snd p.at_).value hw2).trans h

theorem serve_pair (h : pairOf r sc = some p) :
    serve t r sc = pathMut2 t r p.fst p.snd p.at_ p.moveMeta p.linkFlags p.renameFlags ∧
      dotSite sc = some p.at_ ∧ (∀ op ∈ operands r sc, op.arg = p.fst ∨ op.arg = p.snd) ∧
      (Begun t r sc w → p.Begun t r w) := by
  cases sc <;> cases h <;>
    exact ⟨rfl, rfl, by simp [operands], fun hb => hb _ rfl⟩

end Pairs

/-- What the walk finds is the answer of the call. -/
theorem serve_stops (hop : op ∈ operands r sc) (hh : handedOn t r sc w = false)
    (hb : Begun t r sc w) (hr : Reached t r sc w op) (h : walked t r sc w op = some e) :
    (serve t r sc w).1 = .fail e := by
  rcases hpair : pairOf r sc with _ | p
  · have hfd : fromFd t r sc w = false := by
      unfold fromFd
      rw [hpair]
      rfl
    have hstate : walkState t r sc w = w := by
      unfold walkState
      rw [hpair]
      rfl
    simp only [walked, hfd, hstate, Bool.false_eq_true, if_false] at h
    have one {o : Operand} {at_ : Bool} (ho : op ∈ [o])
        (hw : (dotPrefixError t r op.arg at_ w).1 = some e) :
        (dotPrefixError t r o.arg at_ w).1 = some e := mem_singleton.1 ho ▸ hw
    cases sc
    case open_ | openat | creat | openat2 => exact pathOpenFlags_stops (one hop h) _
    case stat | lstat => exact pathStat_stops (one hop h) _ rfl
    case newfstatat => exact pathStat_stops (one hop h) _ (by simpa [handedOn] using hh)
    case statx => exact pathStatx_stops (one hop h)
    case access | faccessat | faccessat2 => exact pathAt_stops (one hop h)
    case readlink | readlinkat => exact doReadlink_stops (one hop h) hb
    case mkdir | mkdirat | mknod | mknodat | rmdir | unlink | unlinkat | truncate =>
      exact pathMut_stops (one hop h) _ _ _ _
    case utimes | utime | utimensat | futimesat => exact doUtimes_stops (one hop h) _
    case chmod | fchmodat | fchmodat2 => exact doChmod_stops (one hop h) _
    case symlink | symlinkat => exact pathSymlink_stops (one hop h) hb
    case rename | renameat | renameat2 | link | linkat => cases hpair
    all_goals cases h
  · obtain ⟨hserve, hsite, hargs, hbegun⟩ := serve_pair (w := w) hpair
    have hstate : walkState t r sc w = (p.asked t r w).2 := by
      unfold walkState
      rw [hpair]
      rfl
    have hfrom : fromFd t r sc w = p.fromFd t r w := by
      unfold fromFd
      rw [hpair]
      rfl
    rw [walked, hsite, bind_some, hfrom, hstate] at h
    split_ifs at h with hfd
    have hfd : p.fromFd t r w = false := by simpa using hfd
    rw [hserve]
    rcases hargs op hop with harg | harg
    · exact pathMut2_stops_fst (hbegun hb) hfd (harg ▸ h)
    · exact pathMut2_stops_snd (hbegun hb) hfd (hr p hpair harg hfd) (harg ▸ h)

end Calls

def dotsTask (path : String) : Task := { mem := .ofText path.toList }

def dotsRegs : Regs := ⟨83, fun | 0 => 1 | _ => 0⟩

end Linuxity.Abi
