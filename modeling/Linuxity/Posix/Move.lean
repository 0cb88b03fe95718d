import Linuxity.Posix.Calls

/-!
# Posix.Move — `rename` and `link`

`moveTree` puts what is at one place, with everything below it, at another.
-/

namespace Posix

open List Option

namespace Host

variable (h : Host) (src dst : Str)

/-- Below `l`, where the tree of `t` is to stand. -/
theorem below_spec {t l p : Loc} {c : Str} {n : Node} (hu : l <+: p)
    (hp : h.node (t ++ (p ++ [c]).drop l.length) = some n) :
    (∃ d, h.node (t ++ p.drop l.length) = some d ∧ d.kind = .dir) ∧ IsName c := by
  rw [drop_append_of_le_length hu.length_le, ← append_assoc] at hp
  exact ⟨h.closed hp, h.named hp⟩

/-- What is at `ls` and below it moves to `ld`, and replaces what was there. -/
def moveTree (ls ld : Loc) (hs : ls ≠ []) (hd : ld ≠ []) (hdir : h.isDirAt ld.dropLast)
    (hname : IsName (ld.getLast hd)) (hout : ¬ls <+: ld.dropLast) : Host where
  node p :=
    if ld <+: p then h.node (ls ++ p.drop ld.length) else if ls <+: p then none else h.node p
  dom := h.dom ++ h.dom.map fun p => ld ++ p.drop ls.length
  nextIno := h.nextIno
  umask := h.umask
  mem_dom := by
    intro p n hp
    split_ifs at hp with hu
    · obtain ⟨t, rfl⟩ := hu
      rw [drop_left] at hp
      exact mem_append_right _ (mem_map.2 ⟨_, h.mem_dom hp, by rw [drop_left]⟩)
    · exact mem_append_left _ (h.mem_dom hp)
  rooted := by
    obtain ⟨n, hn, hk⟩ := h.rooted
    refine ⟨n, ?_, hk⟩
    rw [if_neg (by simpa using hd), if_neg (by simpa using hs), hn]
  closed := by
    intro p c n hp
    by_cases hu : ld <+: p ++ [c]
    · rw [if_pos hu] at hp
      rcases prefix_concat_iff.1 hu with he | hu
      · obtain ⟨d, hd', hk⟩ := isDirAt_iff.1 hdir
        rw [he, dropLast_concat] at hd' hout
        refine ⟨d, ?_, hk⟩
        rw [if_neg, if_neg hout, hd']
        intro hpre
        have := hpre.length_le
        rw [he, length_append, length_singleton] at this
        omega
      · rw [if_pos hu]
        exact (h.below_spec hu hp).1
    · rw [if_neg hu] at hp
      split_ifs at hp with hus
      obtain ⟨d, hd', hk⟩ := h.closed hp
      refine ⟨d, ?_, hk⟩
      rw [if_neg fun hpre => hu (hpre.trans (prefix_append _ _)),
        if_neg fun hpre => hus (hpre.trans (prefix_append _ _)), hd']
  named := by
    intro p c n hp
    by_cases hu : ld <+: p ++ [c]
    · rw [if_pos hu] at hp
      rcases prefix_concat_iff.1 hu with he | hu
      · simpa only [he, getLast_append_singleton] using hname
      · exact (h.below_spec hu hp).2
    · rw [if_neg hu] at hp
      split_ifs at hp with hus
      exact h.named hp
  linkText := by
    intro p n hp
    split_ifs at hp
    · exact h.linkText hp
    · exact h.linkText hp
  ino_lt := by
    intro p n hp
    split_ifs at hp
    · exact h.ino_lt hp
    · exact h.ino_lt hp

def isEmptyAt (l : Loc) : Bool :=
  h.dom.all fun p => !(l.isPrefixOf p && p != l && (h.node p).isSome)

/-- The entry at `ld` does not let the one at `ls` take its place. -/
def replaceError (ls ld : Loc) : Option Errno :=
  match h.node ls with
  | none => some .enoent
  | some s =>
    match h.node ld with
    | none => if s.isDir && ls.dropLast != ld.dropLast && !s.writable then some .eacces else none
    | some d =>
      if s.isDir && !d.isDir then some .enotdir
      else if !s.isDir && d.isDir then some .eisdir
      else if s.isDir && ls.dropLast != ld.dropLast && !s.writable then some .eacces
      else if d.isDir && !h.isEmptyAt ld then some .enotempty
      else none

def sameNode (ls ld : Loc) : Bool :=
  match h.node ls, h.node ld with
  | some s, some d => s.ino == d.ino
  | _, _ => false

/-- `rename`, once both paths have been resolved. -/
def renameTo (ls ld : Loc) : Except Errno Host :=
  if hs : ls = [] then .error .ebusy
  else if hd : ld = [] then .error .ebusy
  else if h.sameNode ls ld then .ok h
  else if hout : ls <+: ld.dropLast then .error .einval
  else if ld <+: ls then .error .enotempty
  else if !(h.mayRemove ls && h.mayRemove ld) then .error .eacces
  else match h.replaceError ls ld with
    | some e => .error e
    | none =>
      if hdir : h.isDirAt ld.dropLast then
        if hname : IsName (ld.getLast hd) then .ok (h.moveTree ls ld hs hd hdir hname hout)
        else .error .einval
      else .error .enotdir

def rename : Except Errno Host :=
  match h.resolve src false with
  | .error e => .error e
  | .ok (.free _ _) => .error .enoent
  | .ok (.found ls) =>
    match h.resolve dst false with
    | .error e => .error e
    | .ok pd => h.renameTo ls pd.loc

/-- What is at `la` and at `lb`, with everything below, change places. -/
def swapTree (la lb : Loc) (hab : ¬la <+: lb) (hba : ¬lb <+: la) (ha : h.node la ≠ none)
    (hb : h.node lb ≠ none) : Host where
  node p :=
    if la <+: p then h.node (lb ++ p.drop la.length)
    else if lb <+: p then h.node (la ++ p.drop lb.length) else h.node p
  dom := h.dom ++ h.dom.map (fun p => la ++ p.drop lb.length) ++
    h.dom.map fun p => lb ++ p.drop la.length
  nextIno := h.nextIno
  umask := h.umask
  mem_dom := by
    intro p n hp
    split_ifs at hp with hu hu'
    · obtain ⟨t, rfl⟩ := hu
      rw [drop_left] at hp
      exact mem_append_left _ (mem_append_right _ (mem_map.2 ⟨_, h.mem_dom hp, by rw [drop_left]⟩))
    · obtain ⟨t, rfl⟩ := hu'
      rw [drop_left] at hp
      exact mem_append_right _ (mem_map.2 ⟨_, h.mem_dom hp, by rw [drop_left]⟩)
    · exact mem_append_left _ (mem_append_left _ (h.mem_dom hp))
  rooted := by
    have ha0 : la ≠ [] := by rintro rfl; exact hab nil_prefix
    have hb0 : lb ≠ [] := by rintro rfl; exact hba nil_prefix
    obtain ⟨n, hn, hk⟩ := h.rooted
    refine ⟨n, ?_, hk⟩
    rw [if_neg (by simpa using ha0), if_neg (by simpa using hb0), hn]
  closed := by
    intro p c n hp
    by_cases hu : la <+: p
    · rw [if_pos (hu.trans (prefix_append _ _))] at hp
      rw [if_pos hu]
      exact (h.below_spec hu hp).1
    by_cases hu' : lb <+: p
    · have hna : ¬la <+: p ++ [c] := fun hpre =>
        (prefix_concat_iff.1 hpre).elim (fun he => hba (he ▸ hu'.trans (prefix_append _ _))) hu
      rw [if_neg hna, if_pos (hu'.trans (prefix_append _ _))] at hp
      rw [if_neg hu, if_pos hu']
      exact (h.below_spec hu' hp).1
    · -- the entry is one of the two, or outside both: its directory stays
      have hex : ∃ m, h.node (p ++ [c]) = some m := by
        by_cases hea : la = p ++ [c]
        · exact ne_none_iff_exists'.1 (hea ▸ ha)
        by_cases heb : lb = p ++ [c]
        · exact ne_none_iff_exists'.1 (heb ▸ hb)
        rw [if_neg fun hpre => (prefix_concat_iff.1 hpre).elim hea hu,
          if_neg fun hpre => (prefix_concat_iff.1 hpre).elim heb hu'] at hp
        exact ⟨n, hp⟩
      obtain ⟨m, hm⟩ := hex
      obtain ⟨d, hd, hk⟩ := h.closed hm
      exact ⟨d, by rw [if_neg hu, if_neg hu', hd], hk⟩
  named := by
    intro p c n hp
    by_cases hu : la <+: p ++ [c]
    · rcases prefix_concat_iff.1 hu with he | hu'
      · obtain ⟨m, hm⟩ := ne_none_iff_exists'.1 (he ▸ ha)
        exact h.named hm
      · rw [if_pos hu] at hp
        exact (h.below_spec hu' hp).2
    by_cases hv : lb <+: p ++ [c]
    · rcases prefix_concat_iff.1 hv with he | hv'
      · obtain ⟨m, hm⟩ := ne_none_iff_exists'.1 (he ▸ hb)
        exact h.named hm
      · rw [if_neg hu, if_pos hv] at hp
        exact (h.below_spec hv' hp).2
    · rw [if_neg hu, if_neg hv] at hp
      exact h.named hp
  linkText := by
    intro p n hp
    split_ifs at hp <;> exact h.linkText hp
  ino_lt := by
    intro p n hp
    split_ifs at hp <;> exact h.ino_lt hp

def exchange : Except Errno Host :=
  match h.resolve src false, h.resolve dst false with
  | .error e, _ => .error e
  | .ok _, .error e => .error e
  | .ok (.found la), .ok (.found lb) =>
    if hab : la <+: lb then if la = lb then .ok h else .error .einval
    else if hba : lb <+: la then .error .einval
    else if !(h.mayRemove la && h.mayRemove lb) then .error .eacces
    else if ha : h.node la = none then .error .enoent
    else if hb : h.node lb = none then .error .enoent
    else .ok (h.swapTree la lb hab hba ha hb)
  | .ok _, .ok _ => .error .enoent

def addName (ls l : Loc) (c : Str) (n : Node) (hls : h.node ls = some n) (hd : h.isDirAt l)
    (hc : IsName c) (hn : h.node (l ++ [c]) = none) : Host where
  node p := if p = l ++ [c] then some n else h.node p
  dom := (l ++ [c]) :: h.dom
  nextIno := h.nextIno
  umask := h.umask
  mem_dom := by
    intro p m hp
    split_ifs at hp with he
    · simp [he]
    · exact .tail _ (h.mem_dom hp)
  rooted := by simpa using h.rooted
  closed hp := (h.insert_spec hd hc hn hp).1
  named hp := (h.insert_spec hd hc hn hp).2
  linkText := by
    intro p m hp
    split_ifs at hp
    · cases hp; exact h.linkText hls
    · exact h.linkText hp
  ino_lt := by
    intro p m hp
    split_ifs at hp
    · cases hp; exact h.ino_lt hls
    · exact h.ino_lt hp

/-- `link`, once the old file has been found. -/
def linkTo (ls : Loc) (dst : Str) : Except Errno Host :=
  match hls : h.node ls with
  | none => .error .enoent
  | some n =>
    if n.isDir then .error .eperm
    else match h.resolve dst false with
      | .error e => .error e
      | .ok (.found _) => .error .eexist
      | .ok (.free l c) =>
        if hd : h.isDirAt l then
          if hc : IsName c then
            if hn : h.node (l ++ [c]) = none then
              if (h.node l).any Node.writable then .ok (h.addName ls l c n hls hd hc hn)
              else .error .eacces
            else .error .eexist
          else .error .einval
        else .error .enotdir

def link : Except Errno Host :=
  match h.resolve src false with
  | .error e => .error e
  | .ok (.free _ _) => .error .enoent
  | .ok (.found ls) => h.linkTo ls dst

def createWith (p : Str) (mode : Nat) (data : Str) : Except Errno Host :=
  match h.resolve p false with
  | .error e => .error e
  | .ok (.found _) => .error .eexist
  | .ok (.free l c) => h.create l c (h.masked mode) (.file data)

/-! ## The other calls that make and remove names -/

theorem isEmptyAt_iff {h : Host} {l : Loc} : h.isEmptyAt l ↔ ∀ c, h.node (l ++ [c]) = none := by
  unfold isEmptyAt
  rw [List.all_eq_true]
  constructor
  · intro hall c
    by_contra hne
    obtain ⟨n, hn⟩ := Option.ne_none_iff_exists'.mp hne
    have hpre : l.isPrefixOf (l ++ [c]) := List.isPrefixOf_iff_prefix.2 (List.prefix_append _ _)
    have := hall _ (h.mem_dom hn)
    simp [hn, hpre] at this
  · intro hnone p _
    simp only [Bool.not_eq_true', Bool.and_eq_false_iff, bne_eq_false_iff_eq,
      Option.isSome_eq_false_iff, Option.isNone_iff_eq_none]
    by_cases hp : l <+: p
    · obtain ⟨s, rfl⟩ := hp
      rcases s with _ | ⟨c, s⟩
      · exact .inl (.inr (by simp))
      · exact .inr (h.node_eq_none_under ⟨s, by simp⟩ (hnone c))
    · exact .inl (.inl (by simpa [← Bool.not_eq_true, List.isPrefixOf_iff_prefix] using hp))

def rmdir (p : Str) : Except Errno Host :=
  match h.resolve p false with
  | .error e => .error e
  | .ok (.free _ _) => .error .enoent
  | .ok (.found l) =>
    if h0 : l = [] then .error .ebusy
    else if !h.isDirAt l then .error .enotdir
    else if he : h.isEmptyAt l then
      if h.mayRemove l then .ok (h.remove l h0 (isEmptyAt_iff.1 he)) else .error .eacces
    else .error .enotempty

def makeNode (p : Str) (mode : Nat) (k : Kind) : Except Errno Host :=
  match h.resolve p false with
  | .error e => .error e
  | .ok (.found _) => .error .eexist
  | .ok (.free l c) => h.create l c mode k

def symlink (text p : Str) : Except Errno Host := h.makeNode p 0o777 (.link text)

/-- The type is in the mode: a regular file, a FIFO, or a device or socket. -/
def mknod (p : Str) (mode : Nat) : Except Errno Host :=
  let type := mode &&& 0o170000
  h.makeNode p (h.masked mode)
    (if type = 0 ∨ type = 0o100000 then .file [] else .special (type == 0o010000))

def renameNoReplace : Except Errno Host :=
  match h.resolve src false, h.resolve dst false with
  | .ok (.found _), .ok (.found _) => .error .eexist
  | _, _ => h.rename src dst

end Host

end Posix
