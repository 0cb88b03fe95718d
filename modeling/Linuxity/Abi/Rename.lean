import Linuxity.Abi.Mutate

/-!
# Abi.Rename — `rename` and `link` (`abi/syscall.hpp`)

Both operands are guest paths.  They are translated to the layer that takes writes, a long list of
refusals is gone through in the order the kernel has, and the call goes to the kernel with both
paths rewritten, unless emulated hard links are concerned.
-/

namespace Linuxity.Abi

open Posix Wire Kernel Logic

def noReplace : Nat := 1

def exchangeFlag : Nat := 2

/-! ## Emulated hard links -/

variable (t : Task) (h : Host) (raw1 raw2 : Str) (ps pd : PathClass)

def tryLink (a b : Str) : Act World Bool := fun w =>
  if t.linkAllowed then ((w.link a b).1.isOk, (w.link a b).2) else (false, w)

def probeLinks (a b : Str) : Act World Bool := do
  Act.modify fun w => (w.unlink a).2
  Act.modify fun w => (w.unlink b).2
  match ← fun w => w.createExcl a 0o600 with
  | .error _ => pure false
  | .ok _ => do
    let works ← tryLink t a b
    Act.modify fun w => (w.unlink a).2
    Act.modify fun w => (w.unlink b).2
    Act.modify fun w => { w with linksWork := some works }
    pure works

def hostLinksWork (near : Str) : Act World Bool := do
  let w ← Act.read id
  match w.host.stat (dirOf near), w.linksWork with
  | .error _, _ => pure false
  | .ok _, some works => pure works
  | .ok _, none =>
    probeLinks t (dirOf near ++ "/.lx-linkprobe-a") (dirOf near ++ "/.lx-linkprobe-b")

/-- The new name becomes an alias of the file the old one stands for. -/
def linkAlias (src dst : Str) : Act World Outcome := do
  match ← onHost (·.lstat src) with
  | .error e => refuse e
  | .ok n =>
    if n.isDir then refuse .eperm
    else match ← fun w => w.createExcl dst 0o600 with
      | .error e => refuse e
      | .ok _ => do
        Act.modify fun w => w.putLinks (w.links.add dst src)
        pure (.virtualize 0)

/-- A file without a name is copied. -/
def emulateLinkFromFd (mode : Nat) (data dst : Str) : Act World Outcome := do
  match ← fun w => w.createWith dst (mode &&& 0o7777) data with
  | .error e => refuse e
  | .ok _ => do
    Act.modify fun w => (w.chmod dst (mode &&& 0o7777)).2
    pure (.virtualize 0)

def fdIsDir : FdFile → Bool
  | .named l => h.isDirAt l
  | .unnamed _ _ => false

def linkFdTo (dst : Str) (works : Bool) : FdFile → Act World Outcome
  | .unnamed mode data =>
    if works then answer <$> fun w => w.createWith dst (mode &&& 0o7777) data
    else emulateLinkFromFd mode data dst
  | .named l =>
    if works then answer <$> fun w => w.linkFd l dst
    else do
      match ← fun w => w.createExcl dst 0o600 with
      | .error e => refuse e
      | .ok _ => do
        Act.modify fun w => w.putLinks (w.links.add dst (w.links.resolve (absPath l)))
        pure (.virtualize 0)

def linkFromFd (r : Regs) (fd : Int) (a2 : Nat) (at_ : Bool) : Act World Outcome :=
  if emptyPathArg t r a2 then refuse .enoent
  else withPath (resolveSecond t r a2 at_) fun dst => do
    let pd ← ask a2 dst true false .parentsOnly
    if pd.realm ≠ .hostBacked ∨ pd.hostPath = [] then refuse .exdev
    else match t.fd fd with
      | none => refuse .ebadf
      | some f =>
        if ← onHost (fdIsDir · f) then refuse .eperm
        else if ← onHost fun h => (h.lstat pd.hostPath).isOk then refuse .eexist
        else do
          let works ← hostLinksWork t pd.hostPath
          linkFdTo pd.hostPath works f

def renameCall (flags : Nat) (src dst : Str) : Act World (Except Errno Unit) := fun w =>
  if flags = 0 ∨ flags = noReplace then w.rename src dst
  else if flags = exchangeFlag then w.exchange src dst
  else (.error .einval, w)

/-- The data of a replaced name goes to one of its other names first. -/
def saveReplaced (dst : Str) : Act World (Except Errno (Option Str)) := fun w =>
  if (w.links.backingOf dst).isSome then (.ok none, w)
  else match w.links.promote dst with
    | none => (.ok none, w)
    | some (heir, links) =>
      match (w.putLinks links).rename dst heir with
      | (.ok _, w) => (.ok (some heir), w)
      | (.error e, w) => (.error e, w.putLinks ((w.links.renamePrefix heir dst).add heir dst))

def restoreReplaced (heir : Option Str) (dst : Str) : Act World Unit := fun w =>
  match heir with
  | none => ((), w)
  | some heir =>
    let w := (w.rename heir dst).2
    let w := (w.sys .writeFile heir true (·.openCreate heir 0o600)).2
    ((), w.putLinks ((w.links.renamePrefix heir dst).add heir dst))

def movedLinks (flags : Nat) (src dst : Str) (dstExists : Bool) (links : LinkTable) : LinkTable :=
  if flags &&& exchangeFlag ≠ 0 then
    let mark := src ++ Char.ofNat 1 :: "lx-swap"
    ((links.renamePrefix src mark).renamePrefix dst src).renamePrefix mark dst
  else
    let links := if dstExists && (links.backingOf dst).isSome then links.drop dst else links
    links.renamePrefix src dst

def renameKeeping (flags : Nat) (src dst : Str) (dstExists : Bool) (heir : Option Str) :
    Act World Outcome := do
  match ← renameCall flags src dst with
  | .error e => do
    restoreReplaced heir dst
    refuse e
  | .ok _ => do
    Act.modify fun w => w.putLinks (movedLinks flags src dst dstExists w.links)
    pure (.virtualize 0)

def renameWithLinks (src dst : Str) (flags : Nat) : Act World Outcome := do
  let w ← Act.read id
  match w.host.lstat src with
  | .error e => refuse e
  | .ok s =>
    let d := (w.host.lstat dst).toOption
    let exchanges := flags &&& exchangeFlag ≠ 0
    if flags &&& noReplace ≠ 0 ∧ d.isSome then refuse .eexist
    else if d.isSome ∧ ¬exchanges ∧ w.links.resolve src = w.links.resolve dst then
      pure (.virtualize 0)
    else if ¬exchanges ∧ d.isSome ∧ dst ≠ src then
      if s.isDir && d.any (!·.isDir) then refuse .enotdir
      else do
        match ← saveReplaced dst with
        | .error e => refuse e
        | .ok heir => renameKeeping flags src dst d.isSome heir
    else renameKeeping flags src dst d.isSome none

/-! ## Refusals, in the order of the kernel -/

def searchError (srcGone : Bool) : Option Errno :=
  if dotTraversalDenied h raw1 ps.hostPath || !hostDirSearchable h ps.hostPath then some .eacces
  else if !srcGone && (dotTraversalDenied h raw2 pd.hostPath || !hostDirSearchable h pd.hostPath)
    then some .eacces
  else none

def renameDotError : Option Errno :=
  if dotTail raw1 = .none ∧ dotTail raw2 = .none then none
  else if !(parentIsDir h ps.hostPath && parentIsDir h pd.hostPath) then some .enotdir
  else match parentResolves h ps.hostPath, parentResolves h pd.hostPath with
    | .error e, _ => some e
    | .ok _, .error e => some e
    | .ok _, .ok _ => some .ebusy

def renameSlashError : Option Errno :=
  if pathSyntax raw1 ≠ .needsDir ∧ pathSyntax raw2 ≠ .needsDir then none
  else if !parentIsDir h ps.hostPath then some .enotdir
  else match hostLexists h ps.hostPath with
    | .error e => some e
    | .ok _ =>
      if hostPathIsDir h pd.hostPath && pathIsAncestor pd.hostPath ps.hostPath then some .enotempty
      else if !hostPathIsDirNofollow h ps.hostPath then some .enotdir
      else none

def linkSlashError : Option Errno :=
  if pathSyntax raw1 ≠ .needsDir ∧ pathSyntax raw2 ≠ .needsDir then none
  else match hostLexists h ps.hostPath with
    | .error e => some e
    | .ok _ =>
      if pathSyntax raw1 = .needsDir ∧ !hostPathIsDirNofollow h ps.hostPath then some .enotdir
      else if (hostLexists h pd.hostPath).isOk then some .eexist
      else if !hostDirSearchable h pd.hostPath then some .eacces
      else match parentResolves h pd.hostPath with
        | .error e => some e
        | .ok _ =>
          if !parentIsDir h pd.hostPath then some .enotdir
          else if pathSyntax raw2 = .needsDir then some .enoent
          else if hostPathIsDir h ps.hostPath then some .eperm
          else some .enoent

def virtualPairError (mounts : List Mount) (src dst : Str) (ps pd : PathClass)
    (moveMeta : Bool) : Option Errno :=
  let sv := underVirtualMount mounts src
  if sv ≠ underVirtualMount mounts dst then some .exdev
  else if sv && !(ps.realm == .hostBacked && ps.hostPath != [] && pd.hostPath != []) then
    if ps.realm = .absent then some .enoent
    else if pd.realm = .virtualFile then some (if moveMeta then .eperm else .eexist)
    else some .enoent
  else if ps.hostPath = [] then some ps.error
  else if pd.hostPath = [] then some pd.error
  else none

def pairError (w : World) (raw1 raw2 src dst : Str) (ps pd : PathClass)
    (moveMeta : Bool) : Option Errno :=
  (if moveMeta then
      (renameDotError w.host raw1 raw2 ps pd).or (renameSlashError w.host raw1 raw2 ps pd)
    else linkSlashError w.host raw1 raw2 ps pd).or
    (virtualPairError w.mounts src dst ps pd moveMeta)

/-! ## The call -/

def linkSourceFd (r : Regs) (a1 : Nat) (at_ : Bool) (linkFlags : Option Nat) (w : World) :
    Option (Option Int) :=
  match linkFlags with
  | none => some none
  | some lf =>
    if emptyCstrArg t r a1 && hasAt lf .emptyPath then some (some (int32 (r.arg 0)))
    else if hasAt lf .symlinkFollow then
      (resolveArg t r a1 at_ true w).map fun p => some (magicFdOf t p)
    else some none

def movePair (a1 a2 : Nat) (moveMeta : Bool) (renameFlags : Nat) (src dst : Str)
    (ps pd : PathClass) : Act World Outcome := do
  let both : Outcome := .redirect { first := { arg := a1, hostPath := ps.hostPath },
                                    second := some { arg := a2, hostPath := pd.hostPath } }
  if moveMeta then do
    Act.modify (World.renameMeta · src dst)
    let links ← Act.read World.links
    if links.touches ps.hostPath || links.touches pd.hostPath then
      renameWithLinks ps.hostPath pd.hostPath renameFlags
    else pure both
  else if !(← hostLinksWork t pd.hostPath) then linkAlias ps.hostPath pd.hostPath
  else pure both

/-- A name is moved as a name; the source of a link stands for its file. -/
def askPair (a1 a2 : Nat) (moveMeta : Bool) (src dst : Str) :
    Act World (PathClass × PathClass) := do
  let ps ← if moveMeta then askName a1 src true false .copyLeaf else ask a1 src true false .copyLeaf
  let pd ← if moveMeta then askName a2 dst true false .parentsOnly
    else ask a2 dst true false .parentsOnly
  pure (ps, pd)

def linkSrcGone (moveMeta : Bool) (ps : PathClass) : Bool :=
  !moveMeta && ps.hostPath != [] && ps.realm == .hostBacked && !(hostLexists h ps.hostPath).isOk

def pairChecked (r : Regs) (a1 a2 : Nat) (at_ moveMeta : Bool) (renameFlags : Nat) (src dst : Str)
    (ps pd : PathClass) : Act World Outcome :=
  let raw1 := t.cstr r a1
  let raw2 := t.cstr r a2
  refuseIf (dotPrefixError t r a1 at_) <|
  refuseIf (guestPrefixLoop a1 src) <| do
  let gone ← onHost (linkSrcGone · moveMeta ps)
  refuseIf (if gone then pure none else dotPrefixError t r a2 at_) <|
    refuseIf (onHost (searchError · raw1 raw2 ps pd gone)) <| do
    let there ← onHost fun h => (hostLexists h ps.hostPath).isOk
    refuseIf (if there then guestPrefixLoop a2 dst else pure none) <|
      refuseIf (Act.read (pairError · raw1 raw2 src dst ps pd moveMeta)) <|
      movePair t a1 a2 moveMeta renameFlags src dst ps pd

def pathMut2 (r : Regs) (a1 a2 : Nat) (at_ moveMeta : Bool) (linkFlags : Option Nat := none)
    (renameFlags : Nat := 0) : Act World Outcome := do
  match ← Act.read (linkSourceFd t r a1 at_ linkFlags) with
  | none => pure .abort
  | some fd =>
    if fd.any (0 ≤ ·) then linkFromFd t r (fd.getD 0) a2 at_
    else if emptyPathArg t r a1 || emptyPathArg t r a2 then refuse .enoent
    else
      withPath (resolveArg t r a1 at_) fun src =>
      withPath (resolveSecond t r a2 at_) fun dst => do
      let (ps, pd) ← askPair a1 a2 moveMeta src dst
      pairChecked t r a1 a2 at_ moveMeta renameFlags src dst ps pd

end Linuxity.Abi
