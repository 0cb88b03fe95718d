import Linuxity.Logic.Climb
import Linuxity.Wire.Path
import Mathlib.Data.List.DropRight

/-!
# Whp.Paths — guest paths on a Windows host (`runtime/windows/sys.hpp`, `win32.hpp`)

`hostPath` resolves `.` and `..` with the slash as the only separator and joins the names to the
root; `toWinPath` writes backslashes and converts to UTF-16.  Win32 then splits at the backslashes
that the guest's names brought along.
-/

namespace Linuxity.Whp

open Logic Posix Wire List

/-! ## The path that the host gets -/

/-- `MultiByteToWideChar` for UTF-8: an ASCII byte stands for itself whatever is around it, and no
other byte gives an ASCII unit. -/
structure Utf8 where
  wide : Str → Str
  wide_nil : wide [] = []
  wide_ascii : ∀ (a : Str) (c : Char) (b : Str), c.toNat < 128 →
    wide (a ++ c :: b) = wide a ++ c :: wide b
  wide_ne_nil : ∀ a, a ≠ [] → wide a ≠ []
  wide_high : ∀ a, (∀ c ∈ a, 128 ≤ c.toNat) → ∀ c ∈ wide a, 128 ≤ c.toNat

def isSep (c : Char) : Bool := c == '\\' || c == '/'

/-- The root without separators at its end, as the constructor keeps it. -/
def trimRoot : Str → Str
  | [] => []
  | c :: s => c :: s.rdropWhile isSep

/-- The names below the root. -/
def hostParts (cwd guest : Str) : List Str :=
  let p := if guest = [] then cwd else guest
  let p := if isAbs p then p else if cwd = ['/'] then '/' :: p else cwd ++ '/' :: p
  (comps p).foldl normalizeStep []

def hostPath (root cwd guest : Str) : Str :=
  if hostParts cwd guest = [] ∧ root = [] then ['/'] else root ++ render (hostParts cwd guest)

def back (c : Char) : Char := if c = '/' then '\\' else c

def literalMark : Str := ['\\', '\\', '?', '\\']

/-- `w.size() >= 3 && w[1] == L':' && w[2] == L'\\'`. -/
def isAbsolute : Str → Bool
  | _ :: d :: e :: _ => d == ':' && e == '\\'
  | _ => false

def addMark (w : Str) : Str := if isAbsolute w ∧ w.take 4 ≠ literalMark then literalMark ++ w else w

def toWinPath (u : Utf8) (path : Str) : Str := addMark (u.wide (path.map back))

/-! ## What Win32 makes of it -/

inductive Volume where
  | drive (letter : Char)
  | share (server name : Str)

def unc : Str := ['U', 'N', 'C']

def Volume.names : Volume → List Str
  | .drive letter => [[letter, ':']]
  | .share server name => [unc, server, name]

/-- The current directory, and that of each drive. -/
structure Env where
  volume : Volume
  dir : List Str
  dirs : Char → List Str

def winNames (w : Str) : List Str := runs isSep w

/-- After `\\?\` only the backslash separates, and `..` is a name. -/
def literalNames (w : Str) : List Str := runs (· == '\\') w

variable (env : Env)

/-- Where a path starts, how much of that `..` cannot leave, and the names that follow. -/
def start (w : Str) : List Str × ℕ × List Str :=
  match w with
  | [] => (env.volume.names ++ env.dir, env.volume.names.length, [])
  | [c] =>
    if isSep c then (env.volume.names, env.volume.names.length, [])
    else (env.volume.names ++ env.dir, env.volume.names.length, winNames [c])
  | c :: d :: rest =>
    if isSep c && isSep d then (unc :: (winNames rest).take 2, 3, (winNames rest).drop 2)
    else if isSep c then (env.volume.names, env.volume.names.length, winNames (d :: rest))
    else if d = ':' then
      (if rest.head?.any isSep then [[c, ':']] else [c, ':'] :: env.dirs c, 1, winNames rest)
    else (env.volume.names ++ env.dir, env.volume.names.length, winNames (c :: d :: rest))

/-- The object that a path names: the names below the root of all devices. -/
def resolve (w : Str) : List Str :=
  if w.take 4 = literalMark then literalNames (w.drop 4)
  else collapse dot dotdot (start env w).2.1 (start env w).1 (start env w).2.2

/-- The guest's path names an object under the root. -/
def Confined (u : Utf8) (env : Env) (root cwd guest : Str) : Prop :=
  resolve env (toWinPath u (if root = [] then ['/'] else root)) <+:
    resolve env (toWinPath u (hostPath (trimRoot root) cwd guest))

/-! ## When it does -/

/-- Where `..` and `.` are names too. -/
def spelled (w : Str) : List Str :=
  if isAbsolute w then literalNames w
  else if w.take 4 = literalMark then literalNames (w.drop 4)
  else (start env w).1 ++ (start env w).2.2

/-- Nothing, a separator, a drive or `\\?`: with names after it, it is another kind of path. -/
def isBare : Str → Bool
  | [] => true
  | [c] => isSep c
  | [_, d] => d == ':'
  | [c, d, e] => c == '\\' && d == '\\' && e == '?'
  | _ => false

/-- `\\server`, with no share yet. -/
def isServer : Str → Bool
  | c :: d :: rest => isSep c && isSep d && (winNames rest).length == 1
  | _ => false

/-- A path with a drive and a separator, one after `\\?\`, or a server: no name can lead out of
it. -/
def isSealed (w : Str) : Bool := isAbsolute w || w.take 4 == literalMark || isServer w

/-- The guest's names, split at their backslashes, name again every directory of the root that they
climb out of. -/
def Stays (root tail : Str) : Prop :=
  let dirs := resolve env root
  let n := net dot dotdot (winNames tail)
  dirs.drop (max (start env root).2.1 (dirs.length - n.1)) <+: n.2

/-- With the root and the names below it in UTF-16. -/
def Safe (given root tail : Str) : Prop :=
  if isBare root then
    spelled env (if given = [] then ['\\'] else given) <+:
      spelled env (if root ++ tail = [] then ['\\'] else root ++ tail)
  else isSealed root ∨ Stays env root tail

/-! ## Paths with names after them -/

/-- The object, for a path that `toWinPath` still has to mark. -/
def place (w : Str) : List Str := if isAbsolute w then literalNames w else resolve env w

variable {w t : Str} {c : Char}

theorem isAbsolute_iff : isAbsolute w ↔ ∃ c rest, w = c :: ':' :: '\\' :: rest := by
  constructor
  · intro h
    rcases w with _ | ⟨c, _ | ⟨d, _ | ⟨e, rest⟩⟩⟩
    · cases h
    · cases h
    · cases h
    · rw [isAbsolute, Bool.and_eq_true, beq_iff_eq, beq_iff_eq] at h
      exact ⟨c, rest, by rw [h.1, h.2]⟩
  · rintro ⟨c, rest, rfl⟩
    rfl

theorem resolve_addMark (w : Str) : resolve env (addMark w) = place env w := by
  rw [place, addMark]
  by_cases habs : isAbsolute w
  · have hmark : w.take 4 ≠ literalMark := by
      obtain ⟨c, rest, rfl⟩ := isAbsolute_iff.1 habs
      intro h
      rw [literalMark] at h
      injection h with _ h
      injection h with h _
      exact absurd h (by decide)
    rw [if_pos ⟨habs, hmark⟩, if_pos habs]
    exact if_pos rfl
  · rw [if_neg fun h => habs h.1, if_neg habs]

theorem isSealed_eq_false (h : isSealed w = false) :
    isAbsolute w = false ∧ w.take 4 ≠ literalMark ∧ isServer w = false := by
  rw [isSealed, Bool.or_eq_false_iff, Bool.or_eq_false_iff, beq_eq_false_iff_ne] at h
  exact ⟨h.1.1, h.1.2, h.2⟩

/-- No separator at the end, or nothing else. -/
def Trimmed (w : Str) : Prop := w = [] ∨ w = ['\\'] ∨ ∃ c ∈ w.getLast?, isSep c = false

theorem two_le_names {d : Char} {rest : Str} (hr : Trimmed (c :: d :: rest))
    (hs : isSealed (c :: d :: rest) = false) (hunc : (isSep c && isSep d)) :
    2 ≤ (winNames rest).length := by
  have hone : (winNames rest).length ≠ 1 := by
    intro hone
    have hserver := (isSealed_eq_false hs).2.2
    rw [isServer, hunc, hone] at hserver
    cases hserver
  have hne : winNames rest ≠ [] := by
    obtain h | h | ⟨x, hx, hsep⟩ := hr
    · cases h
    · cases h
    · rcases rest with _ | ⟨e, rest⟩
      · have hlast : d = x := Option.some.inj hx
        rw [hlast, hsep, Bool.and_false] at hunc
        cases hunc
      · rw [List.getLast?_cons_cons, List.getLast?_cons_cons] at hx
        exact runs_ne_nil _ (mem_of_getLast? hx) hsep
  have hpos := length_pos_iff.2 hne
  omega

theorem floor_le (hr : Trimmed w) (hs : isSealed w = false) :
    (start env w).2.1 ≤ (start env w).1.length := by
  have hdir : env.volume.names.length ≤ (env.volume.names ++ env.dir).length := by
    rw [length_append]
    exact Nat.le_add_right _ _
  rcases w with _ | ⟨c, _ | ⟨d, rest⟩⟩
  · exact hdir
  · rw [start]
    split_ifs
    · exact Nat.le_refl _
    · exact hdir
  · simp only [start]
    by_cases hunc : (isSep c && isSep d)
    · have hlen := two_le_names hr hs hunc
      simp only [if_pos hunc, length_cons, length_take]
      omega
    split_ifs
    · exact Nat.le_refl _
    · exact Nat.le_refl _
    · exact Nat.succ_le_succ (Nat.zero_le _)
    · exact hdir

section Tail

variable {t : Str} (ht : ∀ c ∈ t.head?, c = '\\')
include ht

theorem winNames_append (w : Str) : winNames (w ++ t) = winNames w ++ winNames t :=
  runs_append _ w fun c hc => by rw [ht c hc]; rfl

theorem literalNames_append (w : Str) : literalNames (w ++ t) = literalNames w ++ literalNames t :=
  runs_append _ w fun c hc => by rw [ht c hc]; rfl

variable {w : Str}

/-- More names do not make a drive of a path of two characters that is none. -/
theorem isAbsolute_append (hw : isBare w = false) : isAbsolute (w ++ t) = isAbsolute w := by
  rcases w with _ | ⟨c, _ | ⟨d, _ | ⟨e, rest⟩⟩⟩
  · cases hw
  · rcases t with _ | ⟨x, _ | ⟨y, t⟩⟩
    · rfl
    · rfl
    · obtain rfl := ht x rfl
      rfl
  · rcases t with _ | ⟨x, t⟩
    · rfl
    · have hd : d ≠ ':' := by
        rw [isBare] at hw
        exact beq_eq_false_iff_ne.1 hw
      exact Bool.and_eq_false_iff.2 (.inl (beq_eq_false_iff_ne.2 hd))
  · rfl

omit ht in
theorem take_mark_append (hw : isBare w = false) (hr : Trimmed w) :
    (w ++ t).take 4 = literalMark ↔ w.take 4 = literalMark := by
  rcases w with _ | ⟨c, _ | ⟨d, _ | ⟨e, _ | ⟨f, rest⟩⟩⟩⟩
  · cases hw
  · -- the first character would be a separator
    have hc : c ≠ '\\' := by
      rintro rfl
      cases hw
    constructor
    · intro h
      injection h with h _
      exact absurd h hc
    · exact nofun
  · have hd : d ≠ '\\' := by
      rintro rfl
      obtain h | h | ⟨x, hx, hsep⟩ := hr
      · cases h
      · cases h
      · cases hx
        cases hsep
    constructor
    · intro h
      injection h with _ h
      injection h with h _
      exact absurd h hd
    · exact nofun
  · constructor
    · intro h
      injection h with hc h
      injection h with hd h
      injection h with he h
      rw [hc, hd, he] at hw
      cases hw
    · exact nofun
  · rfl

theorem start_append (env : Env) (hw : isBare w = false) (hr : Trimmed w)
    (hs : isSealed w = false) :
    start env (w ++ t) = ((start env w).1, (start env w).2.1, (start env w).2.2 ++ winNames t) := by
  have hnames := winNames_append ht
  rcases w with _ | ⟨c, _ | ⟨d, rest⟩⟩
  · cases hw
  · -- one character, no separator
    have hc : isSep c = false := hw
    rcases t with _ | ⟨x, t⟩
    · rw [append_nil, winNames, runs_nil, append_nil]
    · obtain rfl := ht x rfl
      simp only [start, cons_append, nil_append, hc, Bool.false_and, Bool.false_eq_true, if_false]
      rw [if_neg (by decide)]
      exact congrArg (fun ns => (_, _, ns)) (hnames [c])
  · simp only [start, cons_append]
    by_cases hunc : (isSep c && isSep d)
    · -- a share: two names are there already
      simp only [if_pos hunc]
      have hlen := two_le_names hr hs hunc
      rw [hnames, take_append_of_le_length hlen, drop_append_of_le_length hlen]
    simp only [if_neg hunc]
    by_cases hroot : isSep c
    · simp only [if_pos hroot]
      exact congrArg (fun ns => (_, _, ns)) (hnames (d :: rest))
    simp only [if_neg hroot]
    by_cases hdrive : d = ':'
    · have hrest : rest ≠ [] := by
        rintro rfl
        rw [isBare, hdrive] at hw
        cases hw
      obtain ⟨e, rest, rfl⟩ := exists_cons_of_ne_nil hrest
      simp only [if_pos hdrive]
      exact congrArg (fun ns => (_, _, ns)) (hnames (e :: rest))
    · simp only [if_neg hdrive]
      exact congrArg (fun ns => (_, _, ns)) (hnames (c :: d :: rest))

/-- The names are walked from the object that the path names. -/
theorem place_append (env : Env) (hw : isBare w = false) (hr : Trimmed w)
    (hs : isSealed w = false) :
    place env (w ++ t) = collapse dot dotdot (start env w).2.1 (resolve env w) (winNames t) := by
  obtain ⟨habs, hmark, -⟩ := isSealed_eq_false hs
  rw [place, isAbsolute_append ht hw, habs, if_neg Bool.false_ne_true, resolve,
    if_neg (mt (take_mark_append hw hr).1 hmark), start_append ht env hw hr hs, resolve,
    if_neg hmark]
  exact foldl_append

end Tail

variable (env : Env) (k : ℕ)

theorem seps_head : ∀ c ∈ (List.replicate k '\\').head?, c = '\\' := by
  intro c hc
  cases k with
  | zero => cases hc
  | succ k => exact (Option.some.inj hc).symm

theorem winNames_seps : winNames (List.replicate k '\\') = [] :=
  runs_eq_nil _ fun c hc => by rw [eq_of_mem_replicate hc]; rfl

theorem literalNames_seps : literalNames (List.replicate k '\\') = [] :=
  runs_eq_nil _ fun c hc => by rw [eq_of_mem_replicate hc]; rfl

theorem sealed_isPrefix (ht : ∀ c ∈ t.head?, c = '\\') (hw : isBare w = false) (hr : Trimmed w)
    (hs : isSealed w) : place env (w ++ List.replicate k '\\') <+: place env (w ++ t) := by
  have hk := seps_head k
  cases habs : isAbsolute w with
  | true =>
    have hplace : ∀ {t : Str}, (∀ c ∈ t.head?, c = '\\') →
        place env (w ++ t) = literalNames w ++ literalNames t := fun ht => by
      rw [place, isAbsolute_append ht hw, habs, if_pos rfl, literalNames_append ht]
    rw [hplace hk, hplace ht, literalNames_seps, append_nil]
    exact prefix_append _ _
  | false =>
    by_cases hmark : w.take 4 = literalMark
    · have hlen : 4 ≤ w.length := by
        have h := congrArg List.length hmark
        rw [length_take] at h
        have h4 : literalMark.length = 4 := rfl
        omega
      have hplace : ∀ {t : Str}, (∀ c ∈ t.head?, c = '\\') →
          place env (w ++ t) = literalNames (w.drop 4) ++ literalNames t := fun ht => by
        rw [place, isAbsolute_append ht hw, habs, if_neg Bool.false_ne_true, resolve,
          if_pos ((take_mark_append hw hr).2 hmark), drop_append_of_le_length hlen,
          literalNames_append ht]
      rw [hplace hk, hplace ht, literalNames_seps, append_nil]
      exact prefix_append _ _
    · -- a server: the first name after it is the share's
      obtain ⟨c, d, rest, rfl, hunc, x, hx⟩ : ∃ c d rest, w = c :: d :: rest ∧
          (isSep c && isSep d) ∧ ∃ x, winNames rest = [x] := by
        rw [isSealed, habs, Bool.false_or, Bool.or_eq_true, beq_iff_eq] at hs
        have hs := hs.resolve_left hmark
        rcases w with _ | ⟨c, _ | ⟨d, rest⟩⟩
        · cases hs
        · cases hs
        · rw [isServer, Bool.and_eq_true, beq_iff_eq] at hs
          exact ⟨c, d, rest, rfl, hs.1, length_eq_one_iff.1 hs.2⟩
      have hplace : ∀ {t : Str}, (∀ c ∈ t.head?, c = '\\') →
          place env (c :: d :: rest ++ t) =
            collapse dot dotdot 3 (unc :: x :: (winNames t).take 1) ((winNames t).drop 1) :=
          fun ht => by
        rw [place, isAbsolute_append ht hw, habs, if_neg Bool.false_ne_true, resolve,
          if_neg (mt (take_mark_append hw hr).1 hmark)]
        simp only [start, cons_append, if_pos hunc]
        rw [winNames_append ht, hx]
        rfl
      rw [hplace hk, hplace ht, winNames_seps]
      exact isPrefix_collapse (Nat.le_succ 2) (prefix_append [unc, x] _) _

/-! ## Roots that are another kind of path with names after them -/

theorem place_eq_spelled (h : isAbsolute w ∨ w.take 4 = literalMark ∨ (start env w).2.2 = []) :
    place env w = spelled env w := by
  rw [place, spelled]
  split_ifs with habs hmark
  · rfl
  · rw [resolve, if_pos hmark]
  · rw [resolve, if_neg hmark, (h.resolve_left habs).resolve_left hmark, append_nil]
    rfl

theorem isSep_backslash : isSep '\\' := rfl

/-- Of `\\server\share` nothing is left by `..`. -/
theorem isPrefix_share_iff {out : List Str} (hout : out.length ≤ 3) {d : Char}
    (hunc : (isSep c && isSep d)) (rest : Str) :
    out <+: place env (c :: d :: rest) ↔ out <+: spelled env (c :: d :: rest) := by
  have habs : isAbsolute (c :: d :: rest) = false := by
    cases rest with
    | nil => rfl
    | cons e rest =>
      rw [isAbsolute, Bool.and_eq_false_iff, beq_eq_false_iff_ne]
      refine .inl ?_
      rintro rfl
      rw [Bool.and_eq_true] at hunc
      cases hunc.2
  rw [place, spelled, habs, if_neg Bool.false_ne_true, if_neg Bool.false_ne_true, resolve]
  split_ifs
  · exact Iff.rfl
  · have hstart : start env (c :: d :: rest) =
        (unc :: (winNames rest).take 2, 3, (winNames rest).drop 2) := by
      rw [start, if_pos hunc]
    rw [hstart]
    dsimp only
    by_cases hlen : 2 ≤ (winNames rest).length
    · have hbase : (unc :: (winNames rest).take 2).length = 3 := by
        rw [length_cons, length_take]
        omega
      have hcut : ∀ {l : List Str}, unc :: (winNames rest).take 2 <+: l →
          (out <+: l ↔ out <+: unc :: (winNames rest).take 2) :=
        fun hl => ⟨fun h => prefix_of_prefix_length_le h hl (by omega), fun h => h.trans hl⟩
      rw [hcut (isPrefix_collapse (by omega) (prefix_refl _) _), hcut (prefix_append _ _)]
    · rw [drop_eq_nil_of_le (by omega), append_nil]
      exact Iff.rfl

theorem volume_length (v : Volume) : v.names.length ≤ 3 := by
  cases v with
  | drive letter => exact Nat.succ_le_succ (Nat.zero_le _)
  | share server name => exact Nat.le_refl _

/-- The root of the current volume, and a path from there. -/
theorem isPrefix_rooted_iff (ht : ∀ c ∈ t.head?, c = '\\') (hne : t ≠ []) :
    env.volume.names <+: place env t ↔ env.volume.names <+: spelled env t := by
  rcases t with _ | ⟨x, _ | ⟨d, rest⟩⟩
  · exact absurd rfl hne
  · obtain rfl := ht x rfl
    rw [place_eq_spelled env (.inr (.inr rfl))]
  · obtain rfl := ht x rfl
    by_cases hmark : isAbsolute ('\\' :: d :: rest) ∨ ('\\' :: d :: rest).take 4 = literalMark
    · rw [place_eq_spelled env (hmark.imp_right .inl)]
    · obtain ⟨habs, hmark⟩ := not_or.1 hmark
      by_cases hd : isSep d
      · exact isPrefix_share_iff env (volume_length _) (Bool.and_eq_true_iff.2 ⟨rfl, hd⟩) rest
      · have hstart : start env ('\\' :: d :: rest) =
            (env.volume.names, env.volume.names.length, winNames (d :: rest)) := by
          simp only [start]
          rw [if_neg fun h => hd (Bool.and_eq_true_iff.1 h).2, if_pos isSep_backslash]
        rw [place, spelled, if_neg habs, if_neg habs, resolve, if_neg hmark, if_neg hmark, hstart]
        exact iff_of_true (isPrefix_collapse (Nat.le_refl _) (prefix_refl _) _) (prefix_append _ _)

/-- What a root of this kind names, with separators after it. -/
theorem place_bare (hw : isBare w) (hr : Trimmed w) (hne : w ≠ []) :
    place env (w ++ List.replicate k '\\') = spelled env (w ++ List.replicate k '\\') := by
  rcases w with _ | ⟨c, _ | ⟨d, _ | ⟨e, _ | ⟨f, rest⟩⟩⟩⟩
  · exact absurd rfl hne
  · have hnone : ∀ k, (winNames (List.replicate k '\\')).drop 2 = [] :=
      fun k => by rw [winNames_seps]; rfl
    have hc : isSep c := hw
    refine place_eq_spelled env (.inr (.inr ?_))
    cases k with
    | zero => rw [replicate_zero, append_nil, start, if_pos hc]
    | succ k =>
      rw [replicate_succ, singleton_append, start,
        if_pos (Bool.and_eq_true_iff.2 ⟨hc, isSep_backslash⟩)]
      exact hnone k
  · have hd : d = ':' := beq_iff_eq.1 hw
    cases k with
    | zero =>
      rw [replicate_zero, append_nil, hd]
      have hmark : ¬[c, ':'].take 4 = literalMark := nofun
      have hcolon : ¬(isSep c && isSep ':') := by
        rw [show isSep ':' = false from rfl, Bool.and_false]
        exact Bool.false_ne_true
      by_cases hc : isSep c
      · rw [place, spelled, if_neg nofun, if_neg nofun, resolve, if_neg hmark, if_neg hmark, start,
          if_neg hcolon, if_pos hc]
        rfl
      · refine place_eq_spelled env (.inr (.inr ?_))
        rw [start, if_neg hcolon, if_neg hc, if_pos rfl]
        exact runs_nil isSep
    | succ k =>
      refine place_eq_spelled env (.inl ?_)
      rw [hd]
      rfl
  · simp only [isBare, Bool.and_eq_true, beq_iff_eq] at hw
    obtain ⟨⟨rfl, rfl⟩, rfl⟩ := hw
    cases k with
    | zero => exact place_eq_spelled env (.inr (.inr rfl))
    | succ k => exact place_eq_spelled env (.inr (.inl rfl))
  · cases hw

theorem spelled_length (hc : isSep c) (k : ℕ) :
    (spelled env ([c] ++ List.replicate k '\\')).length ≤ 3 := by
  cases k with
  | zero =>
    rw [replicate_zero, append_nil, spelled, if_neg nofun, if_neg nofun, start, if_pos hc,
      append_nil]
    exact volume_length _
  | succ k =>
    have hstart : start env ([c] ++ List.replicate (k + 1) '\\') = ([unc], 3, []) := by
      rw [replicate_succ, singleton_append, start,
        if_pos (Bool.and_eq_true_iff.2 ⟨hc, isSep_backslash⟩), winNames_seps]
      rfl
    have habs : isAbsolute ([c] ++ List.replicate (k + 1) '\\') = false := by
      cases k <;> rfl
    have hmark : ([c] ++ List.replicate (k + 1) '\\').take 4 ≠ literalMark := by
      rcases k with _ | k
      · exact nofun
      · intro h
        injection h with _ h
        injection h with _ h
        injection h with h _
        exact absurd h (by decide)
    rw [spelled, habs, if_neg Bool.false_ne_true, if_neg hmark, hstart]
    exact Nat.succ_le_succ (Nat.zero_le _)

theorem bare_iff (ht : ∀ c ∈ t.head?, c = '\\') (hw : isBare w) (hr : Trimmed w)
    (h0 : w = [] → k = 0) :
    place env (if w ++ List.replicate k '\\' = [] then ['\\'] else w ++ List.replicate k '\\') <+:
        place env (if w ++ t = [] then ['\\'] else w ++ t) ↔
      spelled env (if w ++ List.replicate k '\\' = [] then ['\\'] else w ++
        List.replicate k '\\') <+: spelled env (if w ++ t = [] then ['\\'] else w ++ t) := by
  by_cases hnil : w = []
  · have hself : place env ['\\'] = spelled env ['\\'] := place_eq_spelled env (.inr (.inr rfl))
    have hvol : spelled env ['\\'] = env.volume.names := append_nil _
    rw [h0 hnil, hnil, replicate_zero, nil_append, nil_append, if_pos rfl, hself, hvol]
    split_ifs with htnil
    · rw [hself]
    · exact isPrefix_rooted_iff env ht htnil
  · have hlong : ∀ s : Str, w ++ s ≠ [] := fun s => append_ne_nil_of_left_ne_nil hnil s
    rw [if_neg (hlong _), if_neg (hlong _), place_bare env k hw hr hnil]
    rcases t with _ | ⟨x, t⟩
    · rw [← replicate_zero, place_bare env 0 hw hr hnil]
    obtain rfl := ht x rfl
    rcases w with _ | ⟨c, _ | ⟨d, _ | ⟨e, _ | ⟨f, rest⟩⟩⟩⟩
    · exact absurd rfl hnil
    · have hc : isSep c := hw
      exact isPrefix_share_iff env (spelled_length env hc k)
        (Bool.and_eq_true_iff.2 ⟨hc, isSep_backslash⟩) t
    · have hd : d = ':' := beq_iff_eq.1 hw
      rw [hd, place_eq_spelled env (.inl rfl)]
    · simp only [isBare, Bool.and_eq_true, beq_iff_eq] at hw
      obtain ⟨⟨rfl, rfl⟩, rfl⟩ := hw
      rw [place_eq_spelled env (.inr (.inl rfl))]
    · cases hw

/-! ## From the guest's path -/

section Wide

variable (u : Utf8)

theorem Utf8.wide_backslash (b : Str) : u.wide ('\\' :: b) = '\\' :: u.wide b := by
  have h := u.wide_ascii [] '\\' b (by decide)
  rwa [u.wide_nil, nil_append, nil_append] at h

theorem Utf8.wide_append (a : Str) {b : Str} (hb : ∀ c ∈ b.head?, c = '\\') :
    u.wide (a ++ b) = u.wide a ++ u.wide b := by
  rcases b with _ | ⟨c, b⟩
  · rw [u.wide_nil, append_nil, append_nil]
  · obtain rfl := hb c rfl
    rw [u.wide_ascii a _ b (by decide), u.wide_backslash]

theorem Utf8.head_wide {b : Str} (hb : ∀ c ∈ b.head?, c = '\\') :
    ∀ c ∈ (u.wide b).head?, c = '\\' := by
  rcases b with _ | ⟨c, b⟩
  · rw [u.wide_nil]
    exact nofun
  · obtain rfl := hb c rfl
    rw [u.wide_backslash]
    exact fun c hc => (Option.some.inj hc).symm

theorem Utf8.wide_seps (k : ℕ) : u.wide (List.replicate k '\\') = List.replicate k '\\' := by
  induction k with
  | zero => exact u.wide_nil
  | succ k ih => rw [replicate_succ, u.wide_backslash, ih]

theorem Utf8.wide_eq_nil {a : Str} : u.wide a = [] ↔ a = [] :=
  ⟨fun h => Classical.byContradiction fun hne => u.wide_ne_nil a hne h, fun h => h ▸ u.wide_nil⟩

theorem not_isSep_of_high {c : Char} (h : 128 ≤ c.toNat) : isSep c = false := by
  cases hc : isSep c with
  | false => rfl
  | true =>
    rw [isSep, Bool.or_eq_true, beq_iff_eq, beq_iff_eq] at hc
    obtain rfl | rfl := hc
    · exact absurd h (by decide)
    · exact absurd h (by decide)

/-- The last unit is a separator only if the last byte is. -/
theorem Utf8.last_wide {a : Str} (h : ∃ c ∈ a.getLast?, isSep c = false) :
    ∃ c ∈ (u.wide a).getLast?, isSep c = false := by
  -- the bytes after the last ASCII byte
  obtain ⟨c, hc, hsep⟩ := h
  have hhigh : ∀ b : Str, (∀ x ∈ b, 128 ≤ x.toNat) → b ≠ [] →
      ∃ x ∈ (u.wide b).getLast?, isSep x = false := by
    intro b hb hne
    have hlast := List.getLast?_eq_some_getLast (u.wide_ne_nil b hne)
    exact ⟨_, hlast, not_isSep_of_high (u.wide_high b hb _ (getLast_mem _))⟩
  have hsplit := rdropWhile_append_rtakeWhile (l := a) (p := fun x => decide (128 ≤ x.toNat))
  have htail : ∀ x ∈ a.rtakeWhile (fun x => decide (128 ≤ x.toNat)), 128 ≤ x.toNat := by
    intro x hx
    have himp := mem_rtakeWhile_imp hx
    exact of_decide_eq_true himp
  by_cases hfront : a.rdropWhile (fun x => decide (128 ≤ x.toNat)) = []
  · rw [hfront, nil_append] at hsplit
    refine hhigh a (hsplit ▸ htail) ?_
    rintro rfl
    cases hc
  · have hascii := rdropWhile_last_not _ _ hfront
    rw [decide_eq_true_eq, Nat.not_le] at hascii
    rw [← dropLast_append_getLast hfront, append_assoc, singleton_append] at hsplit
    by_cases htnil : a.rtakeWhile (fun x => decide (128 ≤ x.toNat)) = []
    · rw [htnil] at hsplit
      rw [← hsplit, List.getLast?_concat] at hc
      rw [← hsplit, u.wide_ascii _ _ _ hascii, u.wide_nil, List.getLast?_concat]
      exact ⟨c, hc, hsep⟩
    · obtain ⟨x, hx, hxsep⟩ := hhigh _ htail htnil
      rw [← hsplit, u.wide_ascii _ _ _ hascii]
      refine ⟨x, ?_, hxsep⟩
      rw [List.getLast?_append, List.getLast?_cons, hx]
      rfl

end Wide

theorem isSep_back : isSep (back c) = isSep c := by
  unfold back
  split_ifs with h
  · rw [h]
    rfl
  · rfl

/-- The root as it is given: what is kept of it, and separators. -/
theorem map_back_root (root : Str) :
    ∃ k, root.map back = (trimRoot root).map back ++ List.replicate k '\\' := by
  rcases root with _ | ⟨c, s⟩
  · exact ⟨0, rfl⟩
  · refine ⟨(s.rtakeWhile isSep).length, ?_⟩
    have hseps :
        (s.rtakeWhile isSep).map back = List.replicate (s.rtakeWhile isSep).length '\\' := by
      rw [eq_replicate_iff]
      refine ⟨length_map _, fun x hx => ?_⟩
      obtain ⟨y, hy, rfl⟩ := mem_map.1 hx
      have hsep := mem_rtakeWhile_imp hy
      rw [isSep, Bool.or_eq_true, beq_iff_eq, beq_iff_eq] at hsep
      obtain rfl | rfl := hsep
      · rfl
      · rfl
    rw [← hseps, ← map_append, trimRoot, cons_append, rdropWhile_append_rtakeWhile]

theorem trimmed_root (u : Utf8) (root : Str) : Trimmed (u.wide ((trimRoot root).map back)) := by
  rcases root with _ | ⟨c, s⟩
  · exact .inl u.wide_nil
  · by_cases hnil : s.rdropWhile isSep = []
    · rw [trimRoot, hnil]
      cases hc : isSep c with
      | false => exact .inr (.inr (u.last_wide ⟨back c, rfl, isSep_back.trans hc⟩))
      | true =>
        refine .inr (.inl ?_)
        rw [isSep, Bool.or_eq_true, beq_iff_eq, beq_iff_eq] at hc
        obtain rfl | rfl := hc
        · exact u.wide_seps 1
        · exact u.wide_seps 1
    · refine .inr (.inr (u.last_wide ?_))
      have hlast := rdropWhile_last_not _ _ hnil
      refine ⟨back ((s.rdropWhile isSep).getLast hnil), ?_, ?_⟩
      · rw [trimRoot, List.getLast?_map, List.getLast?_cons, List.getLast?_eq_some_getLast hnil]
        rfl
      · rw [isSep_back]
        exact Bool.eq_false_iff.2 hlast

theorem head_render (cs : List Str) : ∀ c ∈ ((render cs).map back).head?, c = '\\' := by
  rcases cs with _ | ⟨c, cs⟩
  · exact nofun
  · exact fun x hx => (Option.some.inj hx).symm

theorem map_back_hostPath (root cwd guest : Str) : (hostPath root cwd guest).map back =
    if root.map back ++ (render (hostParts cwd guest)).map back = [] then ['\\']
    else root.map back ++ (render (hostParts cwd guest)).map back := by
  have hnil : root.map back ++ (render (hostParts cwd guest)).map back = [] ↔
      hostParts cwd guest = [] ∧ root = [] := by
    rw [append_eq_nil_iff, map_eq_nil_iff, map_eq_nil_iff, and_comm]
    refine and_congr_left fun _ => ?_
    cases hostParts cwd guest with
    | nil => exact iff_of_true rfl rfl
    | cons c cs => exact iff_of_false nofun nofun
  rw [hostPath]
  split_ifs with h1 h2 h2
  · rfl
  · exact absurd (hnil.2 h1) h2
  · exact absurd (hnil.1 h2) h1
  · exact map_append

/-- **The guest stays under the root** just if the root has a drive and a separator, or is marked,
or the guest's names do not climb out of it. -/
theorem confined_iff (u : Utf8) (env : Env) (root cwd guest : Str) :
    Confined u env root cwd guest ↔
      Safe env (u.wide (root.map back)) (u.wide ((trimRoot root).map back))
      (u.wide ((render (hostParts cwd guest)).map back)) := by
  obtain ⟨k, hk⟩ := map_back_root root
  have hr := trimmed_root u root
  have ht := u.head_wide (head_render (hostParts cwd guest))
  have hwide :
      u.wide (root.map back) = u.wide ((trimRoot root).map back) ++ List.replicate k '\\' := by
    rw [hk, u.wide_append _ (seps_head k), u.wide_seps]
  have h0 : u.wide ((trimRoot root).map back) = [] → k = 0 := by
    intro h
    rw [u.wide_eq_nil, map_eq_nil_iff] at h
    rcases root with _ | ⟨c, s⟩
    · exact (replicate_eq_nil_iff _).1 hk.symm
    · cases h
  have hpush : ∀ s : Str, u.wide (if s = [] then ['\\'] else s) =
      if u.wide s = [] then ['\\'] else u.wide s := by
    intro s
    split_ifs with h1 h2 h2
    · exact u.wide_seps 1
    · exact absurd (h1 ▸ u.wide_nil) h2
    · exact absurd (u.wide_eq_nil.1 h2) h1
    · rfl
  have hgiven : (if root = [] then ['/'] else root).map back =
      if root.map back = [] then ['\\'] else root.map back := by
    cases root <;> rfl
  rw [Confined, toWinPath, toWinPath, resolve_addMark, resolve_addMark, hgiven, map_back_hostPath,
    hpush, hpush, u.wide_append _ (head_render _), hwide]
  unfold Safe
  generalize u.wide ((trimRoot root).map back) = w at *
  cases hbare : isBare w with
  | true => exact bare_iff env k ht hbare hr h0
  | false =>
    have hne : ∀ s : Str, w ++ s ≠ [] := by
      intro s
      refine append_ne_nil_of_left_ne_nil ?_ s
      rintro rfl
      cases hbare
    rw [if_neg (hne _), if_neg (hne _), if_neg Bool.false_ne_true]
    cases hs : isSealed w with
    | true => exact iff_of_true (sealed_isPrefix env k ht hbare hr hs) (.inl rfl)
    | false =>
      obtain ⟨-, hmark, -⟩ := isSealed_eq_false hs
      have hfloor : (start env w).2.1 ≤ (resolve env w).length := by
        have hf := floor_le env hr hs
        rw [resolve, if_neg hmark, collapse_eq hf, length_append, length_take]
        omega
      rw [place_append (seps_head k) env hbare hr hs, winNames_seps,
        place_append ht env hbare hr hs]
      exact (isPrefix_collapse_iff hfloor _).trans (or_iff_right Bool.false_ne_true).symm

instance (u : Utf8) (env : Env) (root cwd guest : Str) :
    Decidable (Confined u env root cwd guest) :=
  inferInstanceAs (Decidable (_ <+: _))

/-- Bytes that are all ASCII. -/
def Utf8.plain : Utf8 where
  wide a := a
  wide_nil := rfl
  wide_ascii _ _ _ _ := rfl
  wide_ne_nil _ h := h
  wide_high _ h := h

def workDir : Env where
  volume := .drive 'C'
  dir := ["work"]
  dirs _ := []

/-- `--root rootfs`, and a name with backslashes. -/
theorem backslashes_climb :
    ¬Confined .plain workDir "rootfs".toList "/".toList "/..\\..\\Windows".toList := by decide

/-- With a drive the names that climb are names of no file. -/
example : Confined .plain workDir "C:/rootfs/" "/" "/..\\..\\Windows" := by decide

end Linuxity.Whp
