import Linuxity.Abi.Frame.Rules
import Linuxity.Kernel.Alike

/-!
# Abi.Reach — how far a call gets

Before a handler acts on a path it asks a number of questions, and each may end the call.  The
questions change nothing but the log of the names asked about, so what they find can be said of the
world the call started in.
-/

namespace Linuxity.Kernel

open World

instance : IsPreorder World Alike where
  refl := Alike.refl
  trans _ _ _ := Alike.trans

end Linuxity.Kernel

namespace Linuxity.Abi

open Posix Wire Kernel Logic World

/-! ## Questions -/

/-- A program that changes nothing but the log, and does not depend on it. -/
structure Looks {α : Type} (x : Act World α) : Prop where
  keeps : Keeps Alike x
  respects : Respects Alike x

namespace Looks

variable {α β : Type}

theorem pure (a : α) : Looks (Pure.pure a : Act World α) := ⟨.pure a, .pure a⟩

theorem read {f : World → α} (hf : ∀ w l, f (w.withNamed l) = f w) : Looks (Act.read f) :=
  ⟨.read f, .read fun w w' h => by rw [h, hf]⟩

theorem onHost (f : Host → α) : Looks (onHost f) := read fun _ _ => rfl

variable {x : Act World α}

theorem bind {f : α → Act World β} (hx : Looks x) (hf : ∀ a, Looks (f a)) : Looks (x >>= f) :=
  ⟨.bind hx.keeps fun a => (hf a).keeps, .bind hx.respects fun a => (hf a).respects⟩

theorem ite {c : Prop} [Decidable c] {y : Act World α} (hx : Looks x) (hy : Looks y) :
    Looks (if c then x else y) := ⟨.ite hx.keeps hy.keeps, .ite hx.respects hy.respects⟩

theorem value (hx : Looks x) {w w' : World} (h : Alike w w') : (x w').1 = (x w).1 :=
  (hx.respects w w' h).1

end Looks

theorem ask_respects (arg : Nat) (abs : Str) (fw fo : Bool) (wi : WriteIntent) :
    Respects Alike (ask arg abs fw fo wi) := by
  intro w w' h
  obtain ⟨hv, hs⟩ := h.congr fun w l => classify_withNamed w l abs fw fo wi
  exact ⟨hv, (Alike.noteName _ arg abs).symm.trans (hs.trans (.noteName _ arg abs))⟩

/-- A question for reading changes nothing but the log. -/
theorem ask_looks (arg : Nat) (abs : Str) (fo : Bool) (wi : WriteIntent) :
    Looks (ask arg abs false fo wi) := by
  refine ⟨fun w => ?_, ask_respects arg abs false fo wi⟩
  have h : Alike w (classify abs false fo wi w).2 := by rw [classify_read]
  exact h.trans (.noteName _ arg abs)

/-- So does one about a name that is to be removed. -/
theorem classify_remove (abs : Str) (fw fo : Bool) (w : World) :
    (classify abs fw fo .remove w).2 = w :=
  classifyImpl_same (.inr rfl) maxCross fo abs w

theorem ask_remove (arg : Nat) (abs : Str) (fw fo : Bool) : Looks (ask arg abs fw fo .remove) := by
  refine ⟨fun w => ?_, ask_respects arg abs fw fo .remove⟩
  have h : Alike w (classify abs fw fo .remove w).2 := by rw [classify_remove]
  exact h.trans (.noteName _ arg abs)

theorem resolveArg_withNamed (t : Task) (r : Regs) (arg : Nat) (at_ fo : Bool) (w : World)
    (l : List (Nat × Str)) :
    resolveArg t r arg at_ fo (w.withNamed l) = resolveArg t r arg at_ fo w := by
  unfold resolveArg resolveRaw
  rw [show dirFor (w.withNamed l) r at_ = dirFor w r at_ from rfl, absolutize_withNamed]
  rfl

section Checks

variable (t : Task) (r : Regs)

theorem dotWalk_looks (arg : Nat) (cs : List Str) (cur : Str) : Looks (dotWalk arg cs cur) := by
  induction cs generalizing cur with
  | nil => exact .pure none
  | cons c cs ih =>
    refine .bind (ask_looks _ _ _ _) fun pc => .bind (.onHost _) fun e => ?_
    rcases e with _ | e
    · exact ih _
    · exact .pure _

theorem dotPrefixError_looks (arg : Nat) (at_ : Bool) : Looks (dotPrefixError t r arg at_) := by
  have hstart : Looks (Act.read (walkStart r (t.cstr r arg) at_)) := .read fun _ _ => rfl
  refine .ite (.pure _)
    (.ite (.ite (.pure _) (.bind hstart fun base => ?_))
      (.bind hstart fun _ => dotWalk_looks _ _ _))
  exact .bind (ask_looks _ _ _ _) fun _ => .bind (.onHost _) fun _ => .pure _

theorem guestPrefixLoop_looks (arg : Nat) (abs : Str) : Looks (guestPrefixLoop arg abs) :=
  .ite (.pure _) (.bind (ask_looks _ _ _ _) fun _ => .pure _)

end Checks

/-! ## Calls that end early -/

/-- The call ends without an act: with an error, or with the supervisor. -/
inductive Refused : Outcome → Prop
  | fail (e : Errno) : Refused (.fail e)
  | abort : Refused .abort

theorem onHost_bind {α : Type} (f : Host → α) (k : α → Act World Outcome) (w : World) :
    (onHost f >>= k) w = k (f w.host) w := rfl

variable {k : Act World Outcome} {w : World} {x : Act World (Option Errno)}

theorem refuseIf_apply (h : (x w).1 = none) : refuseIf x k w = k (x w).2 := by
  simp only [refuseIf, Act.bind_apply, h]

theorem refuseIf_refused {e : Errno} (h : (x w).1 = some e) :
    refuseIf x k w = (.fail e, (x w).2) := by
  simp only [refuseIf, Act.bind_apply, h]
  rfl

theorem withPath_apply {x : World → Option Str} {k : Str → Act World Outcome} {abs : Str}
    (h : x w = some abs) : withPath x k w = k abs w := by
  simp only [withPath, Act.read_bind, h]

theorem withPath_abort {x : World → Option Str} {k : Str → Act World Outcome} (h : x w = none) :
    withPath x k w = (.abort, w) := by
  simp only [withPath, Act.read_bind, h]
  rfl

theorem refuseIf_run (hx : Looks x) {w0 : World} (hw : Alike w0 w) :
    (∃ e, (x w0).1 = some e ∧ (∃ e, (refuseIf x k w).1 = .fail e) ∧ Alike w0 (refuseIf x k w).2) ∨
      (x w0).1 = none ∧ ∃ w', Alike w0 w' ∧ refuseIf x k w = k w' := by
  have hv := hx.value hw
  have hw' := hw.trans (hx.keeps w)
  rcases h : (x w0).1 with _ | e
  · exact .inr ⟨rfl, _, hw', refuseIf_apply (hv.trans h)⟩
  · refine .inl ⟨e, rfl, ?_⟩
    rw [refuseIf_refused (hv.trans h)]
    exact ⟨⟨e, rfl⟩, hw'⟩

/-! ## Calls that change one path -/

/-- How a call about one name ends: before it has asked, by what it is told, or with an act. -/
inductive NameRun (Asks Passes : Str → Prop) (wi : WriteIntent)
    (act : Str → PathClass → Act World Outcome) (w : World) (res : Outcome × World) : Prop
  | early (ho : Refused res.1) (hw : Alike w res.2) (hn : ∀ abs, ¬Asks abs)
  | late (abs : Str) (ha : Asks abs) (ho : Refused res.1)
      (hw : Alike (classify abs true false wi w).2 res.2)
      (hn : ¬Passes abs)
  | acts (abs : Str) (hp : Passes abs) (w' : World) (hw : Alike (classify abs true false wi w).2 w')
      (hres : res = act abs (classify abs true false wi w).1 w')

/-- What is asked about every name: that its parents may be searched, and that none of them is a
loop. -/
theorem NameRun.asked {Asks Passes : Str → Prop} {wi : WriteIntent}
    {act : Str → PathClass → Act World Outcome} {arg : Nat}
    {p abs : Str} {w0 w1 : World} (hw : Alike w0 w1) (ha : Asks abs)
    (hp : Passes abs ↔
        dotTraversalDenied (classify abs true false wi w0).2.host p
        (classify abs true false wi w0).1.hostPath =
      false ∧ (guestPrefixLoop arg abs (classify abs true false wi w0).2).1 = none) :
    NameRun Asks Passes wi act w0 ((do
      let pc ← ask arg abs true false wi
      if ← onHost (dotTraversalDenied · p pc.hostPath) then refuse .eacces
      else refuseIf (guestPrefixLoop arg abs) (act abs pc)) w1) := by
  obtain ⟨hpc, hw2⟩ := ask_respects arg abs true false wi w0 w1 hw
  have hw2 : Alike (classify abs true false wi w0).2 (ask arg abs true false wi w1).2 :=
    (Alike.noteName _ arg abs).trans hw2
  have hpc : (ask arg abs true false wi w1).1 = (classify abs true false wi w0).1 := hpc
  rw [Act.bind_apply, hpc]
  rw [onHost_bind, hw2.host]
  split_ifs with hs
  · exact .late abs ha (.fail _) hw2 fun h => by simp [(hp.1 h).1] at hs
  obtain ⟨e, he, ⟨e', ho⟩, hl⟩ | ⟨hl, w3, hw3, hk⟩ :=
    refuseIf_run (guestPrefixLoop_looks arg abs) hw2
  · exact .late abs ha (ho ▸ .fail e') hl fun h => by simp [(hp.1 h).2] at he
  · exact .acts abs (hp.2 ⟨by simpa using hs, hl⟩) w3 hw3 hk

section Mut

variable (t : Task) (r : Regs) (arg : Nat) (at_ : Bool) (wi : WriteIntent) (rm : Bool)

/-- The call gets to ask about `abs`. -/
structure MutAsks (w : World) (abs : Str) : Prop where
  given : emptyPathArg t r arg = false
  dots : (dotPrefixError t r arg at_ w).1 = none
  tail : wi = .remove → dotTailErrno (removedirFlag r arg at_ rm) (dotTail (t.cstr r arg)) = none
  name : resolveArg t r arg at_ true w = some abs

structure MutPasses (w : World) (abs : Str) : Prop extends MutAsks t r arg at_ wi rm w abs where
  search : dotTraversalDenied (classify abs true false wi w).2.host (t.cstr r arg)
    (classify abs true false wi w).1.hostPath = false
  loop : (guestPrefixLoop arg abs (classify abs true false wi w).2).1 = none

abbrev MutRun (sp mk : Bool) (w : World) : Outcome × World → Prop :=
  NameRun (MutAsks t r arg at_ wi rm w) (MutPasses t r arg at_ wi rm w) wi
    (mutClass t r arg wi sp mk) w

variable {t r arg at_ wi rm}

theorem MutAsks.unique {w : World} {abs abs' : Str} (h : MutAsks t r arg at_ wi rm w abs)
    (h' : MutAsks t r arg at_ wi rm w abs') : abs' = abs :=
  Option.some.inj (h'.name.symm.trans h.name)

theorem removeDot_refused {e : Errno}
    (he : dotTailErrno (removedirFlag r arg at_ rm) (dotTail (t.cstr r arg)) = some e)
    (k : Act World Outcome) (w : World) :
    Refused (removeDot t r arg at_ rm k w).1 ∧ Alike w (removeDot t r arg at_ rm k w).2 := by
  unfold removeDot
  simp only [he]
  rcases hn : resolveArg t r arg at_ true w with _ | abs
  · rw [withPath_abort hn]
    exact ⟨.abort, .refl w⟩
  · rw [withPath_apply hn]
    have hask := (ask_remove arg abs true false).keeps w
    rw [Act.bind_apply, onHost_bind]
    split_ifs
    · exact ⟨.fail _, hask⟩
    · exact ⟨.fail _, hask⟩

theorem pathMut_run (sp mk : Bool) (w : World) :
    MutRun t r arg at_ wi rm sp mk w (pathMut t r arg at_ wi sp rm mk w) := by
  by_cases hg : emptyPathArg t r arg
  · unfold pathMut
    rw [if_pos hg]
    exact .early (.fail _) (.refl w) fun abs h => absurd hg (by simp [h.given])
  unfold pathMut
  rw [if_neg hg]
  have hg : emptyPathArg t r arg = false := by simpa using hg
  have hdots := (dotPrefixError_looks t r arg at_).keeps w
  rcases hd : (dotPrefixError t r arg at_ w).1 with _ | e
  swap
  · rw [refuseIf_refused hd]
    exact .early (.fail e) hdots fun abs h => by simp [h.dots] at hd
  rw [refuseIf_apply hd]
  generalize (dotPrefixError t r arg at_ w).2 = w1 at hdots ⊢
  have hname : resolveArg t r arg at_ true w1 = resolveArg t r arg at_ true w := by
    rw [hdots, resolveArg_withNamed]
  by_cases ht :
    wi = .remove ∧ dotTailErrno (removedirFlag r arg at_ rm) (dotTail (t.cstr r arg)) ≠ none
  · obtain ⟨hwi, ht⟩ := ht
    obtain ⟨e, he⟩ := Option.ne_none_iff_exists'.1 ht
    rw [if_pos hwi]
    exact .early (removeDot_refused he _ w1).1 (hdots.trans (removeDot_refused he _ w1).2)
      fun abs h => ht (h.tail hwi)
  have htail : wi = .remove →
    dotTailErrno (removedirFlag r arg at_ rm) (dotTail (t.cstr r arg)) = none := by simpa using ht
  have hk : (if wi = .remove then removeDot t r arg at_ rm else id) = id := by
    split_ifs with hwi
    · funext k
      unfold removeDot
      simp only [htail hwi]
      rfl
    · rfl
  rw [hk, id]
  rcases hn : resolveArg t r arg at_ true w with _ | abs
  · rw [withPath_abort (hname.trans hn)]
    exact .early .abort hdots fun abs h => by simp [h.name] at hn
  have ha : MutAsks t r arg at_ wi rm w abs := ⟨hg, hd, htail, hn⟩
  rw [withPath_apply (hname.trans hn)]
  exact .asked hdots ha ⟨fun h => ⟨h.search, h.loop⟩, fun h => ⟨ha, h.1, h.2⟩⟩

end Mut

/-! ## Symbolic links -/

section Symlink

variable (t : Task) (r : Regs) (ta arg : Nat) (at_ : Bool)

structure SymAsks (w : World) (abs : Str) : Prop where
  given : emptyPathArg t r arg = false
  text : emptyPathArg t r ta = false
  dots : (dotPrefixError t r arg at_ w).1 = none
  name : linkName t r arg at_ w = some abs
  plain : pathSyntax (t.cstr r arg) ≠ .needsDir

structure SymPasses (w : World) (abs : Str) : Prop extends SymAsks t r ta arg at_ w abs where
  search : dotTraversalDenied (classify abs true false .parentsOnly w).2.host (t.cstr r arg)
    (classify abs true false .parentsOnly w).1.hostPath = false
  loop : (guestPrefixLoop arg abs (classify abs true false .parentsOnly w).2).1 = none

def symClass (arg : Nat) (abs : Str) (pc : PathClass) : Act World Outcome :=
  if pc.realm = .virtualFile then refuse (virtualMutErrno abs .existing)
  else if pc.hostPath = [] then refuse pc.error
  else pure (.toHost arg pc.hostPath)

abbrev SymRun (w : World) : Outcome × World → Prop :=
  NameRun (SymAsks t r ta arg at_ w) (SymPasses t r ta arg at_ w) .parentsOnly (symClass arg) w

variable {t r ta arg at_}

theorem symlinkSlash_refused (link : Str) (w : World) :
    Refused (symlinkSlash arg link w).1 ∧ Alike w (symlinkSlash arg link w).2 := by
  have hask := (ask_looks arg (stripSlashes link) false .copyLeaf).keeps w
  unfold symlinkSlash
  rw [Act.bind_apply]
  generalize ask arg (stripSlashes link) false false .copyLeaf w = x at hask ⊢
  obtain ⟨pc, w1⟩ := x
  rcases pc.realm with _ | _ | _
  · dsimp only
    rw [onHost_bind]
    split_ifs
    · exact ⟨.fail _, hask⟩
    · rw [onHost_bind]
      split_ifs
      · exact ⟨.fail _, hask⟩
      · exact ⟨.fail _, hask⟩
  · exact ⟨.fail _, hask⟩
  · exact ⟨.fail _, hask⟩

theorem pathSymlink_run (w : World) : SymRun t r ta arg at_ w (pathSymlink t r ta arg at_ w) := by
  unfold pathSymlink
  by_cases hg : emptyPathArg t r arg
  · rw [if_pos hg]
    exact .early (.fail _) (.refl w) fun abs h => absurd hg (by simp [h.given])
  rw [if_neg hg]
  by_cases hta : emptyPathArg t r ta
  · rw [if_pos hta]
    exact .early (.fail _) (.refl w) fun abs h => absurd hta (by simp [h.text])
  rw [if_neg hta]
  have hdots := (dotPrefixError_looks t r arg at_).keeps w
  rcases hd : (dotPrefixError t r arg at_ w).1 with _ | e
  swap
  · rw [refuseIf_refused hd]
    exact .early (.fail e) hdots fun abs h => by simp [h.dots] at hd
  rw [refuseIf_apply hd]
  generalize (dotPrefixError t r arg at_ w).2 = w1 at hdots ⊢
  have hname : linkName t r arg at_ w1 = linkName t r arg at_ w := by
    rw [hdots]
    unfold linkName
    split_ifs <;> exact absolutize_withNamed _ _ _ _
  rcases hn : linkName t r arg at_ w with _ | abs
  · rw [withPath_abort (hname.trans hn)]
    exact .early .abort hdots fun abs h => by simp [h.name] at hn
  rw [withPath_apply (hname.trans hn)]
  by_cases hp : pathSyntax (t.cstr r arg) = .needsDir
  · rw [if_pos hp]
    obtain ⟨ho, hw⟩ := @symlinkSlash_refused arg abs w1
    exact .early ho (hdots.trans hw) fun abs' h => h.plain hp
  rw [if_neg hp]
  have ha : SymAsks t r ta arg at_ w abs := ⟨by simpa using hg, by simpa using hta, hd, hn, hp⟩
  exact .asked hdots ha ⟨fun h => ⟨h.search, h.loop⟩, fun h => ⟨ha, h.1, h.2⟩⟩

end Symlink

/-! ## Calls that change two paths -/

section Pair

variable (t : Task) (r : Regs) (a1 a2 : Nat) (at_ mm : Bool) (lf : Option Nat)

def prepared (mm : Bool) (src dst : Str) (w : World) : (PathClass × PathClass) × World :=
  let c1 :=
    if mm then classifyName src true false .copyLeaf w else classify src true false .copyLeaf w
  let c2 :=
    if mm then classifyName dst true false .parentsOnly c1.2
    else classify dst true false .parentsOnly c1.2
  ((c1.1, c2.1), c2.2)

structure PairAsks (w : World) (src dst : Str) : Prop where
  named : ∃ fd, linkSourceFd t r a1 at_ lf w = some fd ∧ fd.any (0 ≤ ·) = false
  given : (emptyPathArg t r a1 || emptyPathArg t r a2) = false
  fst : resolveArg t r a1 at_ true w = some src
  snd : resolveSecond t r a2 at_ w = some dst

structure PairPasses (w : World) (src dst : Str) :
    Prop extends PairAsks t r a1 a2 at_ lf w src dst where
  dots : (dotPrefixError t r a1 at_ (prepared mm src dst w).2).1 = none
  loop : (guestPrefixLoop a1 src (prepared mm src dst w).2).1 = none
  dots2 : linkSrcGone (prepared mm src dst w).2.host mm (prepared mm src dst w).1.1 = false →
    (dotPrefixError t r a2 at_ (prepared mm src dst w).2).1 = none
  search : searchError (prepared mm src dst w).2.host (t.cstr r a1) (t.cstr r a2)
    (prepared mm src dst w).1.1 (prepared mm src dst w).1.2
    (linkSrcGone (prepared mm src dst w).2.host mm (prepared mm src dst w).1.1) = none
  loop2 : (hostLexists (prepared mm src dst w).2.host (prepared mm src dst w).1.1.hostPath).isOk →
    (guestPrefixLoop a2 dst (prepared mm src dst w).2).1 = none
  error : pairError (prepared mm src dst w).2 (t.cstr r a1) (t.cstr r a2) src dst
    (prepared mm src dst w).1.1 (prepared mm src dst w).1.2 mm = none

/-- How a call ends: as a link from a descriptor, before it has asked, by what it is told, or with
an act. -/
inductive PairRun (fl : Nat) (w : World) (res : Outcome × World) : Prop
  | fromFd (fd : Int) (hfd : linkSourceFd t r a1 at_ lf w = some (some fd)) (h0 : 0 ≤ fd)
      (hres : res = linkFromFd t r fd a2 at_ w)
  | early (ho : Refused res.1) (hw : Alike w res.2)
      (hn : ∀ src dst, ¬PairAsks t r a1 a2 at_ lf w src dst)
  | late (src dst : Str) (ha : PairAsks t r a1 a2 at_ lf w src dst) (ho : ∃ e, res.1 = .fail e)
      (hw : Alike (prepared mm src dst w).2 res.2) (hn : ¬PairPasses t r a1 a2 at_ mm lf w src dst)
  | acts (src dst : Str) (hp : PairPasses t r a1 a2 at_ mm lf w src dst) (w' : World)
      (hw : Alike (prepared mm src dst w).2 w')
      (hres : res = movePair t a1 a2 mm fl src dst (prepared mm src dst w).1.1
          (prepared mm src dst w).1.2 w')

variable {t r a1 a2 at_ mm lf}

theorem askName_respects (arg : Nat) (abs : Str) (fw fo : Bool) (wi : WriteIntent) :
    Respects Alike (askName arg abs fw fo wi) := by
  intro w w' h
  obtain ⟨hv, hs⟩ := h.congr fun w l => classifyImpl_withNamed w l fw wi maxCross fo abs
  exact ⟨hv, (Alike.noteName _ arg abs).symm.trans (hs.trans (.noteName _ arg abs))⟩

theorem askPair_prepared (a1 a2 : Nat) (mm : Bool) (src dst : Str) (w : World) :
    (askPair a1 a2 mm src dst w).1 = (prepared mm src dst w).1 ∧
      Alike (prepared mm src dst w).2 (askPair a1 a2 mm src dst w).2 := by
  rcases mm with _ | _
  · obtain ⟨hv, hs⟩ :=
      ask_respects a2 dst true false .parentsOnly (classify src true false .copyLeaf w).2
      (ask a1 src true false .copyLeaf w).2 (.noteName _ _ _)
    exact ⟨Prod.ext rfl hv, (Alike.noteName _ a2 dst).trans hs⟩
  · obtain ⟨hv, hs⟩ :=
      askName_respects a2 dst true false .parentsOnly (classifyName src true false .copyLeaf w).2
      (askName a1 src true false .copyLeaf w).2 (.noteName _ _ _)
    exact ⟨Prod.ext rfl hv, (Alike.noteName _ a2 dst).trans hs⟩

theorem pairChecked_run (fl : Nat) {w : World} {src dst : Str}
    (ha : PairAsks t r a1 a2 at_ lf w src dst) {w1 : World}
    (hw : Alike (prepared mm src dst w).2 w1) :
    PairRun t r a1 a2 at_ mm lf fl w
      (pairChecked t r a1 a2 at_ mm fl src dst (prepared mm src dst w).1.1
        (prepared mm src dst w).1.2 w1) := by
  unfold pairChecked
  rcases refuseIf_run (dotPrefixError_looks t r a1 at_) hw with
    ⟨e, he, ho, hl⟩ | ⟨hdots, w2, hw2, hk⟩
  · exact .late src dst ha ho hl fun hp => by simp [hp.dots] at he
  rw [hk]
  rcases refuseIf_run (guestPrefixLoop_looks a1 src) hw2 with ⟨e, he, ho, hl⟩ | ⟨hloop, w3, hw3, hk⟩
  · exact .late src dst ha ho hl fun hp => by simp [hp.loop] at he
  rw [hk, onHost_bind, hw3.host]
  have hx : Looks
      (if linkSrcGone (prepared mm src dst w).2.host mm (prepared mm src dst w).1.1 then pure none
        else dotPrefixError t r a2 at_) := .ite (.pure none) (dotPrefixError_looks t r a2 at_)
  rcases refuseIf_run hx hw3 with ⟨e, he, ho, hl⟩ | ⟨hdots2, w4, hw4, hk⟩
  · refine .late src dst ha ho hl fun hp => ?_
    split_ifs at he with hg
    simp [hp.dots2 (by simpa using hg)] at he
  rw [hk]
  have hx := Looks.onHost (searchError · (t.cstr r a1) (t.cstr r a2) (prepared mm src dst w).1.1
    (prepared mm src dst w).1.2
      (linkSrcGone (prepared mm src dst w).2.host mm (prepared mm src dst w).1.1))
  rcases refuseIf_run hx hw4 with ⟨e, he, ho, hl⟩ | ⟨hsearch, w5, hw5, hk⟩
  · exact .late src dst ha ho hl fun hp => by simp [onHost, Act.read_apply, hp.search] at he
  rw [hk, onHost_bind, hw5.host]
  have hx :
    Looks
    (if (hostLexists (prepared mm src dst w).2.host (prepared mm src dst w).1.1.hostPath).isOk then
      guestPrefixLoop a2 dst else pure none) := .ite (guestPrefixLoop_looks a2 dst) (.pure none)
  rcases refuseIf_run hx hw5 with ⟨e, he, ho, hl⟩ | ⟨hloop2, w6, hw6, hk⟩
  · refine .late src dst ha ho hl fun hp => ?_
    split_ifs at he with hg
    simp [hp.loop2 hg] at he
  rw [hk]
  have hx :
    Looks (Act.read (pairError · (t.cstr r a1) (t.cstr r a2) src dst (prepared mm src dst w).1.1
    (prepared mm src dst w).1.2 mm)) := .read fun _ _ => rfl
  rcases refuseIf_run hx hw6 with ⟨e, he, ho, hl⟩ | ⟨herr, w7, hw7, hk⟩
  · exact .late src dst ha ho hl fun hp => by simp [Act.read_apply, hp.error] at he
  rw [hk]
  refine .acts src dst ⟨ha, hdots, hloop, fun hg => ?_, hsearch, fun hg => ?_, herr⟩ w7 hw7 rfl
  · rwa [if_neg (by simp [hg])] at hdots2
  · rwa [if_pos hg] at hloop2

theorem pathMut2_run (fl : Nat) (w : World) :
    PairRun t r a1 a2 at_ mm lf fl w (pathMut2 t r a1 a2 at_ mm lf fl w) := by
  unfold pathMut2
  rw [Act.read_bind]
  rcases hfd : linkSourceFd t r a1 at_ lf w with _ | fd
  · refine .early .abort (.refl w) fun src dst ha => ?_
    obtain ⟨fd, h, _⟩ := ha.named
    simp [h] at hfd
  dsimp only
  split_ifs with h0 hg
  · rcases fd with _ | fd
    · simp at h0
    · exact .fromFd fd hfd (by simpa using h0) rfl
  · exact .early (.fail _) (.refl w) fun src dst ha => absurd hg (by simp [ha.given])
  · rcases hs : resolveArg t r a1 at_ true w with _ | src
    · rw [withPath_abort hs]
      exact .early .abort (.refl w) fun src dst ha => by simp [ha.fst] at hs
    rw [withPath_apply hs]
    rcases hd : resolveSecond t r a2 at_ w with _ | dst
    · rw [withPath_abort hd]
      exact .early .abort (.refl w) fun src dst ha => by simp [ha.snd] at hd
    rw [withPath_apply hd]
    obtain ⟨hv, hw⟩ := askPair_prepared a1 a2 mm src dst w
    have ha : PairAsks t r a1 a2 at_ lf w src dst :=
      ⟨⟨fd, hfd, by simpa using h0⟩, by simpa using hg, hs, hd⟩
    have := pairChecked_run fl ha hw
    rw [Act.bind_apply, hv]
    exact this

end Pair

end Linuxity.Abi
