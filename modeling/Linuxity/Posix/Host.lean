import Linuxity.Posix.Path
import Mathlib.Tactic.SplitIfs

/-!
# Posix.Host — a file tree with its invariant

A `Loc` is the physical place of an entry: the names from the root down to it, with no link on
the way.  A `Host` says which node is at each place.  Its fields make an ill-formed tree
impossible to build: the root is a directory, every entry lies in a directory, every entry has
a proper name, no link has an empty text, and the inode counter is above every inode in use.
-/

namespace Posix

open List

inductive Errno where
  | eperm | enoent | eio | enxio | ebadf | eacces | efault | eexist | exdev | enotdir | eisdir
  | einval | erofs | enametoolong | enosys | enotempty | eloop | eopnotsupp | erange | enodata
  | esrch | enoexec | ebusy | enodev
  deriving DecidableEq

inductive Kind where
  | dir
  | file (data : Str)
  | link (target : Str)
  /-- A FIFO, or else a device or a socket. -/
  | special (fifo : Bool)
  deriving DecidableEq

structure Node where
  ino : Nat
  mode : Nat
  kind : Kind
  deriving DecidableEq

namespace Node

def isDir (n : Node) : Bool := n.kind == .dir

def isLink (n : Node) : Bool := match n.kind with | .link _ => true | _ => false

def searchable (n : Node) : Bool := n.mode &&& 0o100 != 0

def writable (n : Node) : Bool := n.mode &&& 0o200 != 0

def readable (n : Node) : Bool := n.mode &&& 0o400 != 0

end Node

abbrev Loc := List Str

structure Host where
  node : Loc → Option Node
  /-- Every occupied place, so that a directory can be listed. -/
  dom : List Loc
  nextIno : Nat
  umask : Nat
  mem_dom : ∀ {l n}, node l = some n → l ∈ dom
  rooted : ∃ n, node [] = some n ∧ n.kind = .dir
  closed : ∀ {l c n}, node (l ++ [c]) = some n → ∃ d, node l = some d ∧ d.kind = .dir
  named : ∀ {l c n}, node (l ++ [c]) = some n → IsName c
  linkText : ∀ {l n}, node l = some n → n.kind ≠ .link []
  ino_lt : ∀ {l n}, node l = some n → n.ino < nextIno

namespace Host

variable (h : Host) (es : List (Loc × Node))

def isDirAt (l : Loc) : Bool := (h.node l).any Node.isDir

theorem isDirAt_iff {h : Host} {l : Loc} :
    h.isDirAt l ↔ ∃ d, h.node l = some d ∧ d.kind = .dir := by
  simp [isDirAt, Option.any_eq_true, Node.isDir]

theorem node_eq_none_under {a b : Loc} (hab : a <+: b) (ha : h.node a = none) :
    h.node b = none := by
  obtain ⟨t, rfl⟩ := hab
  induction t using List.reverseRecOn with
  | nil => simpa using ha
  | append_singleton t c ih =>
    rw [← append_assoc]
    cases hn : h.node (a ++ t ++ [c]) with
    | none => rfl
    | some n =>
      obtain ⟨d, hd, _⟩ := h.closed hn
      rw [ih] at hd
      cases hd

theorem node_eq_none_below {a : Loc} {n : Node} (ha : h.node a = some n)
    (hn : n.kind ≠ .dir) (c : Str) (t : Loc) : h.node (a ++ c :: t) = none := by
  have hc : h.node (a ++ [c]) = none := by
    cases hk : h.node (a ++ [c]) with
    | none => rfl
    | some m =>
      obtain ⟨d, hd, hdir⟩ := h.closed hk
      rw [ha] at hd
      cases hd
      exact absurd hdir hn
  exact h.node_eq_none_under ⟨t, by simp⟩ hc

/-- Everything occupied in `h` is occupied by the same node in `h'`. -/
def Le (h h' : Host) : Prop := ∀ l n, h.node l = some n → h'.node l = some n

theorem Le.refl : h.Le h := fun _ _ hn => hn

theorem Le.trans {a b c : Host} (h1 : a.Le b) (h2 : b.Le c) : a.Le c :=
  fun l n hn => h2 l n (h1 l n hn)

/-! ## Updates -/

/-- The tree with one more entry, in a directory. -/
theorem insert_spec {l p : Loc} {c d : Str} {x n : Node} (hd : h.isDirAt l) (hc : IsName c)
    (hn : h.node (l ++ [c]) = none)
    (hp : (if p ++ [d] = l ++ [c] then some x else h.node (p ++ [d])) = some n) :
    (∃ m, (if p = l ++ [c] then some x else h.node p) = some m ∧ m.kind = .dir) ∧ IsName d := by
  split_ifs at hp with he
  · obtain ⟨rfl, rfl⟩ : p = l ∧ d = c := by simpa using he
    obtain ⟨m, hm, hk⟩ := isDirAt_iff.1 hd
    exact ⟨⟨m, by simpa using hm, hk⟩, hc⟩
  · obtain ⟨m, hm, hk⟩ := h.closed hp
    refine ⟨⟨m, ?_, hk⟩, h.named hp⟩
    rw [if_neg]
    · exact hm
    · rintro rfl
      rw [hn] at hm
      cases hm

/-- A new entry `c` in the directory `l`, with a fresh inode. -/
def add (l : Loc) (c : Str) (mode : Nat) (k : Kind) (hd : h.isDirAt l)
    (hc : IsName c) (hn : h.node (l ++ [c]) = none) (hk : k ≠ .link []) : Host where
  node p := if p = l ++ [c] then some ⟨h.nextIno, mode, k⟩ else h.node p
  dom := (l ++ [c]) :: h.dom
  nextIno := h.nextIno + 1
  umask := h.umask
  mem_dom := by
    intro p n hp
    split_ifs at hp with he
    · simp [he]
    · exact .tail _ (h.mem_dom hp)
  rooted := by simpa using h.rooted
  closed hp := (h.insert_spec hd hc hn hp).1
  named hp := (h.insert_spec hd hc hn hp).2
  linkText := by
    intro p n hp
    split_ifs at hp with he
    · cases hp; exact hk
    · exact h.linkText hp
  ino_lt := by
    intro p n hp
    split_ifs at hp with he
    · cases hp; exact Nat.lt_succ_self _
    · exact Nat.lt_succ_of_lt (h.ino_lt hp)

theorem add_node {l : Loc} {c : Str} {mode : Nat} {k : Kind} {hd hc hn hk} (p : Loc) :
    (h.add l c mode k hd hc hn hk).node p =
      if p = l ++ [c] then some ⟨h.nextIno, mode, k⟩ else h.node p := rfl

theorem le_add {l : Loc} {c : Str} {mode : Nat} {k : Kind} {hd hc hn hk} :
    h.Le (h.add l c mode k hd hc hn hk) := by
  intro p n hp
  rw [add_node, if_neg]
  · exact hp
  · rintro rfl
    rw [hn] at hp
    cases hp

/-- Every name of the inode `i` changes by `g`, which keeps the inode, what is a directory and
the text of links. -/
def update (i : Nat) (g : Node → Node)
    (hg : ∀ n, (g n).ino = n.ino ∧ ((g n).kind = .dir ↔ n.kind = .dir) ∧
      ∀ t, (g n).kind = .link t → n.kind = .link t) : Host where
  node p := (h.node p).map fun n => if n.ino = i then g n else n
  dom := h.dom
  nextIno := h.nextIno
  umask := h.umask
  mem_dom := by
    intro p n hp
    obtain ⟨m, hm, _⟩ := Option.map_eq_some_iff.1 hp
    exact h.mem_dom hm
  rooted := by
    obtain ⟨n, hn, hk⟩ := h.rooted
    refine ⟨if n.ino = i then g n else n, by rw [hn]; rfl, ?_⟩
    split_ifs
    · exact (hg n).2.1.2 hk
    · exact hk
  closed := by
    intro p c n hp
    obtain ⟨m, hm, _⟩ := Option.map_eq_some_iff.1 hp
    obtain ⟨d, hd, hk⟩ := h.closed hm
    refine ⟨if d.ino = i then g d else d, by rw [hd]; rfl, ?_⟩
    split_ifs
    · exact (hg d).2.1.2 hk
    · exact hk
  named := by
    intro p c n hp
    obtain ⟨m, hm, _⟩ := Option.map_eq_some_iff.1 hp
    exact h.named hm
  linkText := by
    intro p n hp
    obtain ⟨m, hm, rfl⟩ := Option.map_eq_some_iff.1 hp
    split_ifs
    · exact fun hk => h.linkText hm ((hg m).2.2 [] hk)
    · exact h.linkText hm
  ino_lt := by
    intro p n hp
    obtain ⟨m, hm, rfl⟩ := Option.map_eq_some_iff.1 hp
    have hlt := h.ino_lt hm
    split_ifs
    · rw [(hg m).1]; exact hlt
    · exact hlt

theorem update_node {i : Nat} {g : Node → Node} {hg} (p : Loc) :
    (h.update i g hg).node p = (h.node p).map fun n => if n.ino = i then g n else n := rfl

/-- The entry `l`, which has nothing below it, is taken out. -/
def remove (l : Loc) (h0 : l ≠ []) (hl : ∀ c, h.node (l ++ [c]) = none) : Host where
  node p := if p = l then none else h.node p
  dom := h.dom
  nextIno := h.nextIno
  umask := h.umask
  mem_dom := by
    intro p n hp
    split_ifs at hp
    exact h.mem_dom hp
  rooted := by simpa [h0.symm] using h.rooted
  closed := by
    intro p c n hp
    split_ifs at hp
    obtain ⟨d, hd, hk⟩ := h.closed hp
    refine ⟨d, ?_, hk⟩
    rw [if_neg]
    · exact hd
    · rintro rfl
      rw [hl c] at hp
      cases hp
  named := by
    intro p c n hp
    split_ifs at hp
    exact h.named hp
  linkText := by
    intro p n hp
    split_ifs at hp
    exact h.linkText hp
  ino_lt := by
    intro p n hp
    split_ifs at hp
    exact h.ino_lt hp

/-! ## A tree from its entries -/

def lookupIn (l : Loc) : Option Node := (es.find? (·.1 == l)).map (·.2)

/-- The entries form a tree: a root directory, every other entry named and in a directory, no
empty link text, and every inode below `nextIno`. -/
def wellFormed (nextIno : Nat) : Bool :=
  (lookupIn es []).any Node.isDir && es.all fun e =>
    decide (e.2.ino < nextIno ∧ e.2.kind ≠ .link []) &&
      (e.1 == [] ||
          ((lookupIn es e.1.dropLast).any Node.isDir && decide (IsName (e.1.getLast?.getD []))))

theorem lookupIn_mem {es : List (Loc × Node)} {l : Loc} {n : Node}
    (h : lookupIn es l = some n) : (l, n) ∈ es := by
  obtain ⟨e, he, rfl⟩ := Option.map_eq_some_iff.1 h
  have hl : e.1 = l := by simpa using List.find?_some he
  rw [← hl]
  exact mem_of_find?_eq_some he

theorem wellFormed_spec {nextIno : Nat} (hw : wellFormed es nextIno) {l : Loc} {c : Str} {n : Node}
    (h : lookupIn es (l ++ [c]) = some n) :
    (∃ d, lookupIn es l = some d ∧ d.kind = .dir) ∧ IsName c := by
  simp only [wellFormed, Bool.and_eq_true, all_eq_true] at hw
  have := (hw.2 _ (lookupIn_mem h)).2
  simp only [Bool.or_eq_true, beq_iff_eq, append_eq_nil_iff, cons_ne_self, and_false, false_or,
    Bool.and_eq_true, dropLast_concat, Option.any_eq_true, List.getLast?_concat, Option.getD_some,
    decide_eq_true_eq] at this
  obtain ⟨⟨d, hd, hk⟩, hc⟩ := this
  exact ⟨⟨d, hd, by simpa [Node.isDir] using hk⟩, hc⟩

def ofList (nextIno : Nat) (hw : wellFormed es nextIno) : Host where
  node := lookupIn es
  dom := es.map (·.1)
  nextIno := nextIno
  umask := 0
  mem_dom := fun h => mem_map.2 ⟨_, lookupIn_mem h, rfl⟩
  rooted := by
    simp only [wellFormed, Bool.and_eq_true, Option.any_eq_true] at hw
    obtain ⟨⟨n, hn, hd⟩, _⟩ := hw
    exact ⟨n, hn, by simpa [Node.isDir] using hd⟩
  closed h := (wellFormed_spec es hw h).1
  named h := (wellFormed_spec es hw h).2
  linkText := by
    intro l n h
    simp only [wellFormed, Bool.and_eq_true, all_eq_true, decide_eq_true_eq] at hw
    exact (hw.2 _ (lookupIn_mem h)).1.2
  ino_lt := by
    intro l n h
    simp only [wellFormed, Bool.and_eq_true, all_eq_true, decide_eq_true_eq] at hw
    exact (hw.2 _ (lookupIn_mem h)).1.1

end Host

end Posix
