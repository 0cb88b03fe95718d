import Linuxity.Logic.Lines
import Linuxity.Logic.Run
import Linuxity.Posix.Path
import Mathlib.Data.Finset.Basic
import Mathlib.Data.Finset.Lattice.Lemmas

/-!
# Kernel.Whiteout — the journal of removed names (`kernel/file_namespace.hpp`)

A name that is removed from the lower layer is kept in a set, and the set in a text file: a line for
each name added, and one with a mark for each name cleared.
-/

namespace Linuxity.Kernel.Whiteout

open Logic Posix List

structure Whiteouts where
  set : Finset Str := ∅
  file : Str := []

inductive Op where
  | add (path : Str)
  | clear (path : Str)
  /-- The set is walked in an order of its own. -/
  | rewrite (order : List Str)

variable (w : Whiteouts)

def addWhiteout (path : Str) : Whiteouts :=
  if path ∈ w.set then w else { set := insert path w.set, file := w.file ++ (path ++ ['\n']) }

def clearWhiteout (path : Str) : Whiteouts :=
  if path ∈ w.set then { set := w.set.erase path, file := w.file ++ ('!' :: path ++ ['\n']) } else w

def rewriteWhiteouts (order : List Str) : Whiteouts := { w with file := unlines '\n' order }

def step : Op → Whiteouts
  | .add path => addWhiteout w path
  | .clear path => clearWhiteout w path
  | .rewrite order => rewriteWhiteouts w order

def Valid : Op → Prop
  | .rewrite order => order.toFinset = w.set
  | _ => True

def chomp (line : Str) : Str := line.rdropWhile fun c => c == '\n' || c == '\r'

def lineMax : ℕ := 4095

def loadLine (set : Finset Str) (line : Str) : Finset Str :=
  let s := chomp line
  if s = [] then set else if s.head? = some '!' then set.erase s.tail else insert s set

def loadWhiteouts (file : Str) : Finset Str := (linesOf '\n' lineMax file).foldl loadLine ∅

/-! ## Lines that are read back -/

structure Plain (path : Str) : Prop where
  nonempty : path ≠ []
  newline : '\n' ∉ path
  last : path.getLast? ≠ some '\r'
  first : path.head? ≠ some '!'

/-- The lines that a call writes are read back as they are. -/
def Readable : Op → Prop
  | .add path => path ∉ w.set → Plain path ∧ path.length ≤ lineMax
  | .clear path => path ∈ w.set → path.length + 1 ≤ lineMax
  | .rewrite _ => True

theorem chomp_newline (l : Str) : chomp (l ++ ['\n']) = chomp l := rdropWhile_concat_pos _ _ _ rfl

theorem chomp_plain {path : Str} (hn : '\n' ∉ path) (hr : path.getLast? ≠ some '\r') :
    chomp path = path := by
  rw [chomp, rdropWhile_eq_self_iff]
  intro hne hend
  rw [Bool.or_eq_true, beq_iff_eq, beq_iff_eq] at hend
  obtain hend | hend := hend
  · exact hn (hend ▸ getLast_mem hne)
  · exact hr (by rw [List.getLast?_eq_some_getLast hne, hend])

theorem loadLine_add {path : Str} (h : Plain path) (set : Finset Str) :
    loadLine set (path ++ ['\n']) = insert path set := by
  rw [loadLine, chomp_newline, chomp_plain h.newline h.last, if_neg h.nonempty, if_neg h.first]

theorem loadLine_clear {path : Str} (h : Plain path) (set : Finset Str) :
    loadLine set ('!' :: path ++ ['\n']) = set.erase path := by
  have hbang : '\n' ∉ '!' :: path := by
    rw [mem_cons, not_or]
    exact ⟨by decide, h.newline⟩
  have hlast : ('!' :: path).getLast? ≠ some '\r' := by
    rw [List.getLast?_cons_of_ne_nil h.nonempty]
    exact h.last
  rw [loadLine, chomp_newline, chomp_plain hbang hlast, if_neg (cons_ne_nil _ _), List.head?_cons,
    if_pos rfl, tail_cons]

/-- The file is made of lines that are read back, and they give the set. -/
structure Kept (w : Whiteouts) : Prop where
  lines : ∃ ls : List Str, w.file = unlines '\n' ls ∧ (∀ l ∈ ls, '\n' ∉ l ∧ l.length ≤ lineMax) ∧
    (ls.map (· ++ ['\n'])).foldl loadLine ∅ = w.set
  plain : ∀ path ∈ w.set, Plain path ∧ path.length ≤ lineMax

theorem Kept.load {w : Whiteouts} (h : Kept w) : loadWhiteouts w.file = w.set := by
  obtain ⟨ls, hfile, hls, hset⟩ := h.lines
  have hcut : ∀ l set, loadLine set l = loadLine set (l ++ ['\n']) := fun l set => by
    rw [loadLine, loadLine, chomp_newline]
  rw [loadWhiteouts, hfile,
    foldl_linesOf (by decide) (fun _ => rfl) (fun l hl => ⟨(hls l hl).1, (hls l hl).2, hcut l⟩),
    hset]

theorem Kept.append {w : Whiteouts} (h : Kept w) {l : Str} (hl : '\n' ∉ l ∧ l.length ≤ lineMax) :
    ∃ ls : List Str, w.file ++ (l ++ ['\n']) = unlines '\n' ls ∧
      (∀ l ∈ ls, '\n' ∉ l ∧ l.length ≤ lineMax) ∧
      (ls.map (· ++ ['\n'])).foldl loadLine ∅ = loadLine w.set (l ++ ['\n']) := by
  obtain ⟨ls, hfile, hls, hset⟩ := h.lines
  refine ⟨ls ++ [l], ?_, fun m hm => ?_, ?_⟩
  · rw [hfile, unlines_append]
    exact congrArg (unlines '\n' ls ++ ·) (append_nil _).symm
  · obtain hm | hm := mem_append.1 hm
    · exact hls m hm
    · exact mem_singleton.1 hm ▸ hl
  · rw [map_append, foldl_append, hset]
    rfl

theorem foldl_add {order : List Str} (h : ∀ p ∈ order, Plain p) (set : Finset Str) :
    (order.map (· ++ ['\n'])).foldl loadLine set = order.toFinset ∪ set := by
  induction order generalizing set with
  | nil => exact (Finset.empty_union set).symm
  | cons p order ih =>
    rw [map_cons, foldl_cons, loadLine_add (h p (.head _)),
      ih fun q hq => h q (.tail _ hq), toFinset_cons, Finset.union_insert, Finset.insert_union]

theorem kept_step {w : Whiteouts} {op : Op} (h : Kept w) (hv : Valid w op) (hr : Readable w op) :
    Kept (step w op) := by
  cases op with
  | add path =>
    rw [step, addWhiteout]
    split_ifs with hmem
    · exact h
    · obtain ⟨hplain, hlen⟩ := hr hmem
      obtain ⟨ls, hfile, hls, hset⟩ := h.append ⟨hplain.newline, hlen⟩
      refine ⟨⟨ls, hfile, hls, hset.trans (loadLine_add hplain _)⟩, fun p hp => ?_⟩
      obtain rfl | hp := Finset.mem_insert.1 hp
      · exact ⟨hplain, hlen⟩
      · exact h.plain p hp
  | clear path =>
    rw [step, clearWhiteout]
    split_ifs with hmem
    · have hplain := (h.plain path hmem).1
      have hbang : '\n' ∉ '!' :: path := by
        rw [mem_cons, not_or]
        exact ⟨by decide, hplain.newline⟩
      obtain ⟨ls, hfile, hls, hset⟩ := h.append ⟨hbang, hr hmem⟩
      exact ⟨⟨ls, hfile, hls, hset.trans (loadLine_clear hplain _)⟩,
        fun p hp => h.plain p (Finset.mem_of_mem_erase hp)⟩
    · exact h
  | rewrite order =>
    have hplain : ∀ p ∈ order, Plain p ∧ p.length ≤ lineMax := fun p hp =>
      h.plain p (hv ▸ mem_toFinset.2 hp)
    refine ⟨⟨order, rfl, fun l hl => ⟨(hplain l hl).1.newline, (hplain l hl).2⟩, ?_⟩, h.plain⟩
    rw [foldl_add fun p hp => (hplain p hp).1, Finset.union_empty]
    exact hv

def run (ops : List Op) : Whiteouts := ops.foldl step {}

/-- **Loading the journal gives the set back** after any calls whose lines can be read. -/
theorem load_whiteouts_run (ops : List Op) (hvalid : Along step Valid {} ops)
    (hread : Along step Readable {} ops) : loadWhiteouts (run ops).file = (run ops).set := by
  have hkept : ∀ w, Kept w → Along step Valid w ops → Along step Readable w ops →
      Kept (ops.foldl step w) := by
    clear hvalid hread
    induction ops with
    | nil => exact fun w h _ _ => h
    | cons op ops ih => exact fun w h hv hr => ih _ (kept_step h hv.1 hr.1) hv.2 hr.2
  exact (hkept {} ⟨⟨[], rfl, nofun, rfl⟩, nofun⟩ hvalid hread).load

def twoLines : Str := "/a\n/b"

/-- Two other names are removed in the next run. -/
theorem newline_splits_name :
    loadWhiteouts (run [.add twoLines]).file = {"/a".toList, "/b".toList} ∧
      (run [.add twoLines]).set = {twoLines} := by
  decide

theorem load_whiteouts_run_again :
    loadWhiteouts (run [.add "/a".toList, .clear "/a".toList]).file = ∅ := by
  refine load_whiteouts_run [.add "/a", .clear "/a"] ⟨trivial, trivial, trivial⟩
    ⟨fun _ => ?_, fun _ => ?_, trivial⟩
  · exact ⟨⟨by decide, by decide, by decide, by decide⟩, by decide⟩
  · decide

end Linuxity.Kernel.Whiteout
