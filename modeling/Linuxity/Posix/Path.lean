import Mathlib.Algebra.Group.Int.Units
import Mathlib.Data.List.Basic
import Mathlib.Data.List.Infix

/-!
# Posix.Path — path strings and the components a kernel walks

A path is a list of characters.  `comps` is the list of its slash-free runs, in order;
`render` writes a list of components back as an absolute path.  Nothing here looks at a file
system: `..` is a component like any other.
-/

namespace Posix

open List

/-- A path, a file name, a link's text or a file's bytes. -/
abbrev Str := List Char

instance : Coe String Str := ⟨String.toList⟩

def dot : Str := ['.']

def dotdot : Str := ['.', '.']

def isAbs (p : Str) : Bool := p.head? == some '/'

/-- The components of a path: its maximal runs of characters other than the slash. -/
def comps (p : Str) : List Str := (p.splitOn '/').filter (· ≠ [])

/-- Components written as an absolute path; the empty list is the empty string. -/
def render (cs : List Str) : Str := cs.flatMap ('/' :: ·)

/-- A component that can name a directory entry. -/
def IsName (c : Str) : Prop := c ≠ [] ∧ '/' ∉ c ∧ c ≠ dot ∧ c ≠ dotdot

instance (c : Str) : Decidable (IsName c) := inferInstanceAs (Decidable (_ ∧ _ ∧ _ ∧ _))

def upToSlash (p : Str) : Str := (p.reverse.dropWhile (· != '/')).reverse

def leafOf (p : Str) : Str := (p.reverse.takeWhile (· != '/')).reverse

def dirOf (p : Str) : Str := (upToSlash p).dropLast

/-! ## Components -/

@[simp] theorem comps_nil : comps [] = [] := by
  simp [comps]

theorem comps_append_slash (a b : Str) : comps (a ++ '/' :: b) = comps a ++ comps b := by
  unfold comps
  rw [List.splitOn, splitOnP_append_cons a b (by simp), filter_append]
  rfl

@[simp] theorem comps_slash (p : Str) : comps ('/' :: p) = comps p := by
  simpa using comps_append_slash [] p

variable {c p b : Str} {cs : List Str}

theorem comps_of_noSlash (h : '/' ∉ c) (h0 : c ≠ []) : comps c = [c] := by
  have hs : c.splitOn '/' = [c] := by
    apply splitOnP_eq_singleton
    intro x hx
    simpa using fun hc : x = '/' => h (hc ▸ hx)
  simp [comps, hs, h0]

theorem comps_append_noSlash (a : Str) (h : '/' ∉ c) (h0 : c ≠ []) :
    comps (a ++ '/' :: c) = comps a ++ [c] := by
  rw [comps_append_slash, comps_of_noSlash h h0]

theorem ne_nil_of_mem_comps (h : c ∈ comps p) : c ≠ [] := by
  simp only [comps, mem_filter, decide_eq_true_eq] at h
  exact h.2

theorem noSlash_of_mem_splitOn (h : c ∈ p.splitOn '/') : '/' ∉ c := by
  induction p generalizing c with
  | nil => simp_all
  | cons x p ih =>
    rw [List.splitOn, splitOnP_cons_eq_if_modifyHead] at h
    split_ifs at h with hx
    · rcases mem_cons.1 h with rfl | h
      · simp
      · exact ih h
    · -- `x` joins the first run of the rest
      obtain ⟨hd, tl, hs⟩ := exists_cons_of_ne_nil (splitOnP_ne_nil (· == '/') p)
      rw [hs, modifyHead_cons, mem_cons] at h
      have hmem : ∀ d ∈ hd :: tl, '/' ∉ d := fun d hd' => ih (by rw [List.splitOn, hs]; exact hd')
      rcases h with rfl | h
      · have hx' : x ≠ '/' := by simpa using hx
        have := hmem hd (by simp)
        simp [this, Ne.symm hx']
      · exact hmem c (by simp [h])

theorem noSlash_of_mem_comps (h : c ∈ comps p) : '/' ∉ c :=
  noSlash_of_mem_splitOn (mem_of_mem_filter h)

/-! ## Rendering -/

@[simp] theorem render_nil : render [] = [] := rfl

@[simp] theorem render_cons (c : Str) (cs : List Str) :
    render (c :: cs) = '/' :: (c ++ render cs) := by
  simp [render]

theorem render_append (cs ds : List Str) : render (cs ++ ds) = render cs ++ render ds := by
  simp [render]

theorem render_snoc (cs : List Str) (c : Str) : render (cs ++ [c]) = render cs ++ '/' :: c := by
  simp [render_append]

theorem comps_append_render (p : Str) (h : ∀ c ∈ cs, c ≠ [] ∧ '/' ∉ c) :
    comps (p ++ render cs) = comps p ++ cs := by
  induction cs using List.reverseRecOn with
  | nil => simp
  | append_singleton cs c ih =>
    have hc := h c (by simp)
    rw [render_snoc, ← append_assoc, comps_append_noSlash _ hc.2 hc.1,
      ih fun d hd => h d (by simp [hd]), append_assoc]

theorem comps_render (h : ∀ c ∈ cs, c ≠ [] ∧ '/' ∉ c) : comps (render cs) = cs := by
  simpa using comps_append_render [] h

/-! ## The last slash -/

theorem upToSlash_append (a : Str) (h : '/' ∉ b) : upToSlash (a ++ '/' :: b) = a ++ ['/'] := by
  have hb : ∀ x ∈ b.reverse, (x != '/') := by
    intro x hx
    simpa using fun hc : x = '/' => h (by simpa [hc] using hx)
  simp only [upToSlash, reverse_append, reverse_cons, append_assoc]
  rw [dropWhile_append_of_pos hb]
  simp

theorem leafOf_append (a : Str) (h : '/' ∉ b) : leafOf (a ++ '/' :: b) = b := by
  have hb : ∀ x ∈ b.reverse, (x != '/') := by
    intro x hx
    simpa using fun hc : x = '/' => h (by simpa [hc] using hx)
  simp only [leafOf, reverse_append, reverse_cons, append_assoc]
  rw [takeWhile_append_of_pos hb]
  simp

theorem dirOf_append (a : Str) (h : '/' ∉ b) : dirOf (a ++ '/' :: b) = a := by
  simp [dirOf, upToSlash_append a h]

theorem comps_dirOf {s : Str} (hs : '/' ∈ s) (hl : s.getLast? ≠ some '/') :
    comps (dirOf s) = (comps s).dropLast := by
  obtain ⟨c, a, h1, h2⟩ := eq_append_cons_of_mem (mem_reverse.2 hs)
  have hsplit : s = a.reverse ++ '/' :: c.reverse := by
    rw [← reverse_reverse s, h1]
    simp
  have hc : '/' ∉ c.reverse := by simpa using h2
  have h0 : c.reverse ≠ [] := by
    intro h0
    rw [hsplit, h0] at hl
    simp at hl
  rw [hsplit, dirOf_append _ hc, comps_append_noSlash _ hc h0, dropLast_concat]

/-! ## Normal paths -/

def absPath (cs : List Str) : Str := if cs = [] then ['/'] else render cs

/-- An absolute path without `.`, `..`, empty components or a trailing slash. -/
def Normal (p : Str) : Prop := ∃ cs, (∀ c ∈ cs, IsName c) ∧ p = absPath cs

theorem IsName.ne_nil_noSlash (h : IsName c) : c ≠ [] ∧ '/' ∉ c := ⟨h.1, h.2.1⟩

@[simp] theorem absPath_nil : absPath [] = ['/'] := rfl

theorem absPath_of_ne_nil (h : cs ≠ []) : absPath cs = render cs := if_neg h

theorem comps_absPath (h : ∀ c ∈ cs, IsName c) : comps (absPath cs) = cs := by
  unfold absPath
  split_ifs with hc
  · simp [hc]
  · exact comps_render fun c hc => (h c hc).ne_nil_noSlash

theorem Normal.absPath_comps (h : Normal p) : absPath (comps p) = p := by
  obtain ⟨cs, hcs, rfl⟩ := h
  rw [comps_absPath hcs]

theorem Normal.isName (h : Normal p) (hc : c ∈ comps p) : IsName c := by
  obtain ⟨cs, hcs, rfl⟩ := h
  rw [comps_absPath hcs] at hc
  exact hcs c hc

theorem normal_absPath (h : ∀ c ∈ cs, IsName c) : Normal (absPath cs) := ⟨cs, h, rfl⟩

theorem absPath_ne_nil (cs : List Str) : absPath cs ≠ [] := by
  unfold absPath
  split_ifs with h
  · simp
  · cases cs with
    | nil => exact absurd rfl h
    | cons c cs => simp

theorem Normal.ne_nil (h : Normal p) : p ≠ [] := by
  obtain ⟨cs, -, rfl⟩ := h
  exact absPath_ne_nil cs

theorem isAbs_absPath (cs : List Str) : isAbs (absPath cs) := by
  unfold absPath
  split_ifs with h
  · rfl
  · cases cs with
    | nil => exact absurd rfl h
    | cons c cs => simp [isAbs]

/-- Cutting a rendered path at a slash cuts its list of components. -/
theorem render_eq_append {a : Str} (h : ∀ c ∈ cs, '/' ∉ c) (hb : b = [] ∨ b.head? = some '/')
    (hab : render cs = a ++ b) : ∃ cs1 cs2, cs = cs1 ++ cs2 ∧ a = render cs1 ∧ b = render cs2 := by
  induction cs generalizing a with
  | nil =>
    have := append_eq_nil_iff.1 hab.symm
    exact ⟨[], [], rfl, this.1, this.2⟩
  | cons c cs ih =>
    cases a with
    | nil => exact ⟨[], c :: cs, rfl, rfl, by simpa using hab.symm⟩
    | cons x a =>
      rw [render_cons, cons_append, cons_eq_cons] at hab
      obtain ⟨rfl, hab⟩ := hab
      -- the cut cannot fall inside `c`, which has no slash
      rcases append_eq_append_iff.1 hab with ⟨a', ha', hr⟩ | ⟨c', hc', hb'⟩
      · obtain ⟨cs1, cs2, h1, h2, h3⟩ := ih (fun d hd => h d (.tail _ hd)) hr
        exact ⟨c :: cs1, cs2, by rw [h1]; rfl, by rw [ha', h2]; simp, h3⟩
      · cases c' with
        | nil =>
          refine ⟨[c], cs, rfl, by simp [hc'], ?_⟩
          simpa using hb'
        | cons y c' =>
          exfalso
          have hy : y = '/' := by
            rcases hb with rfl | hb
            · simp at hb'
            · rw [hb'] at hb; simpa using hb
          exact h c (by simp) (by rw [hc', hy]; simp)

end Posix
