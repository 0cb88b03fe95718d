import Linuxity.Posix.Walk

/-!
# Posix.Calls — the file-system calls

Each call resolves its path with `Host.resolve` and then reads or updates the tree at the place
found.  A call that fails returns its error and no tree, so the caller's tree is unchanged.
-/

namespace Posix

namespace Host

/-! ## Looking -/

variable (h : Host) (p : Str) (mode : Nat)

def nodeOf (follow : Bool) : Except Errno Node :=
  match h.resolve p follow with
  | .error e => .error e
  | .ok (.free _ _) => .error .enoent
  | .ok (.found l) =>
    match h.node l with
    | none => .error .enoent
    | some n => .ok n

def lstat : Except Errno Node := h.nodeOf p false

def stat : Except Errno Node := h.nodeOf p true

def readlink : Except Errno Str :=
  match h.lstat p with
  | .error e => .error e
  | .ok n =>
    match n.kind with
    | .link t => .ok t
    | _ => .error .einval

def readFile : Except Errno Str :=
  match h.stat p with
  | .error e => .error e
  | .ok n =>
    if n.readable = false then .error .eacces
    else match n.kind with
      | .file d => .ok d
      | .dir => .error .eisdir
      | .link _ => .error .eloop
      | .special _ => .error .enxio

/-! ## Creating -/

def masked : Nat := mode &&& (0o7777 ^^^ (h.umask &&& 0o7777))

/-- A new entry, if its directory lets the caller add one; a link must have a text. -/
def create (l : Loc) (c : Str) (mode : Nat) (k : Kind) : Except Errno Host :=
  if hk : k = .link [] then .error .enoent
  else if hd : h.isDirAt l then
    if hc : IsName c then
      if hn : h.node (l ++ [c]) = none then
        if (h.node l).any Node.writable then .ok (h.add l c mode k hd hc hn hk) else .error .eacces
      else .error .eexist
    else .error .einval
  else .error .enotdir

def mkdir : Except Errno Host :=
  match h.resolve p false with
  | .error e => .error e
  | .ok (.found _) => .error .eexist
  | .ok (.free l c) => h.create l c (h.masked mode) .dir

/-- `open(O_WRONLY | O_CREAT | O_TRUNC)` and writing `data`. -/
def writeFile (data : Str) : Except Errno Host :=
  match h.resolve p true with
  | .error e => .error e
  | .ok (.free l c) => h.create l c (h.masked mode) (.file data)
  | .ok (.found l) =>
    match h.node l with
    | none => .error .enoent
    | some n =>
      match n.kind with
      | .dir => .error .eisdir
      | .link _ => .error .eloop
      | .special _ => .ok h
      | .file _ =>
        if n.writable = false then .error .eacces
        else .ok (h.update n.ino
          (fun m => match m.kind with | .file _ => { m with kind := .file data } | _ => m)
          (fun m => by cases hk : m.kind <;> simp [hk]))

def chmod : Except Errno Host :=
  match h.stat p with
  | .error e => .error e
  | .ok n =>
    .ok (h.update n.ino (fun m => { m with mode := mode }) (fun _ => ⟨rfl, Iff.rfl, fun _ => id⟩))

def chmodAt (l : Loc) (mode : Nat) : Except Errno Host :=
  match h.node l with
  | none => .error .enoent
  | some n =>
    .ok (h.update n.ino (fun m => { m with mode := mode }) (fun _ => ⟨rfl, Iff.rfl, fun _ => id⟩))

/-- `open(O_CREAT | O_EXCL)`, which does not follow a final link, of an empty file. -/
def createExcl : Except Errno Host :=
  match h.resolve p false with
  | .error e => .error e
  | .ok (.found _) => .error .eexist
  | .ok (.free l c) => h.create l c (h.masked mode) (.file [])

def openCreate : Except Errno Host :=
  match h.resolve p true with
  | .error e => .error e
  | .ok (.free l c) => h.create l c (h.masked mode) (.file [])
  | .ok (.found l) => if h.isDirAt l then .error .eisdir else .ok h

/-! ## Removing -/

/-- The directory of an entry lets the caller take entries out. -/
def mayRemove (l : Loc) : Bool := (h.node l.dropLast).any Node.writable

def unlink : Except Errno Host :=
  match h.resolve p false with
  | .error e => .error e
  | .ok (.free _ _) => .error .enoent
  | .ok (.found l) =>
    match hn : h.node l with
    | none => .error .enoent
    | some n =>
      if hd : n.kind = .dir then .error .eisdir
      else if h.mayRemove l = false then .error .eacces
      else .ok (h.remove l
        (by rintro rfl; obtain ⟨r, hr, hk⟩ := h.rooted; rw [hn] at hr; cases hr; exact hd hk)
        (fun c => h.node_eq_none_below hn hd c []))

def orSame (r : Except Errno Host) : Host := r.toOption.getD h

end Host

end Posix
