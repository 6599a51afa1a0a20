import Mathlib.Data.List.GetD
import YohdaOS.Lib.Lines
import YohdaOS.Text
import YohdaOS.Vga

/-!
# The buffer as a page

The rows of the buffer hold the text that was written since it was cleared.  The character that
finds its row full begins the next row, and is not in it.
-/

namespace YohdaOS.Vga

open Lines

/-- What the call writes; `vt_new_line` ends the line. -/
def VgaOp.text : VgaOp → List (BitVec 8)
  | .textWrite (some c) => cstr c
  | .flushWithBuf (some buf) => cstr buf
  | .newLine (some buf) => cstr buf ++ [0x0A]
  | _ => []

/-- The rows above the one of the cursor, and the part of that row before the cursor. -/
structure Page where
  above : List (List (BitVec 8))
  cur : List (BitVec 8)

namespace Page

def empty : Page := ⟨[], []⟩

def rows (p : Page) : List (List (BitVec 8)) := p.above ++ [p.cur]

def newLine (p : Page) : Page := ⟨p.above ++ [p.cur], []⟩

/-- One round of `_vga_text_write` on the page. -/
def put (p : Page) (c : BitVec 8) : Page :=
  if c = 0x0A ∨ 80 ≤ p.cur.length then p.newLine else ⟨p.above, p.cur ++ [c]⟩

def write (p : Page) (s : List (BitVec 8)) : Page := s.foldl put p

variable {p : Page} {c : BitVec 8} {s : List (BitVec 8)} {i : ℕ}

@[simp] theorem rows_newLine (p : Page) : p.newLine.rows = p.rows ++ [[]] := rfl

theorem put_newline (p : Page) : p.put 0x0A = p.newLine := if_pos (Or.inl rfl)

theorem put_full (c : BitVec 8) (h : 80 ≤ p.cur.length) : p.put c = p.newLine := if_pos (Or.inr h)

theorem put_char (hc : c ≠ 0x0A) (h : p.cur.length < 80) : p.put c = ⟨p.above, p.cur ++ [c]⟩ :=
  if_neg (not_or.2 ⟨hc, not_le.2 h⟩)

theorem write_append (p : Page) (s t : List (BitVec 8)) : p.write (s ++ t) = (p.write s).write t :=
  List.foldl_append

theorem rows_getD (p : Page) (i : ℕ) :
    p.rows.getD i [] =
      if i < p.above.length then p.above.getD i []
      else if i = p.above.length then p.cur else [] := by
  rw [rows]
  split_ifs with hlt heq
  · rw [List.getD_append _ _ _ _ hlt]
  · rw [heq, List.getD_append_right _ _ _ _ le_rfl, Nat.sub_self]
    rfl
  · rw [List.getD_eq_default]
    simp
    omega

/-- Where no line is too long, the rows are the lines. -/
theorem rows_write (h : ∀ l ∈ linesFrom 0x0A p.cur s, l.length ≤ 80) :
    (p.write s).rows = p.above ++ linesFrom 0x0A p.cur s := by
  induction s generalizing p with
  | nil => simp [write, rows]
  | cons c s ih =>
    by_cases hc : c = 0x0A
    · subst hc
      rw [linesFrom_newline] at h ⊢
      have hrows := @ih p.newLine fun l hl => h l (List.mem_cons_of_mem _ hl)
      rw [write, List.foldl_cons, put_newline, ← write, hrows, newLine]
      simp
    · rw [linesFrom_cons hc] at h ⊢
      obtain ⟨l, hl, hpre⟩ := prefix_mem_linesFrom 0x0A (p.cur ++ [c]) s
      have hlen := hpre.length_le.trans (h l hl)
      rw [List.length_append, List.length_singleton] at hlen
      rw [write, List.foldl_cons, put_char hc (by omega), ← write]
      exact @ih ⟨p.above, p.cur ++ [c]⟩ h

/-- The number of characters of the page. -/
def chars (p : Page) : ℕ := p.rows.flatten.length

theorem chars_newLine (p : Page) : p.newLine.chars = p.chars := by simp [chars]

theorem chars_put (p : Page) (hc : c ≠ 0x0A) :
    (p.put c).chars ≤ p.chars + 1 := by
  by_cases hfull : 80 ≤ p.cur.length
  · rw [put_full c hfull, chars_newLine]
    exact Nat.le_succ _
  · rw [put_char hc (by omega)]
    simp [chars, rows]
    omega

theorem chars_write_le (p : Page) (s : List (BitVec 8)) :
    (p.write s).chars ≤ p.chars + (s.filter fun c => decide (c ≠ 0x0A)).length := by
  induction s generalizing p with
  | nil => simp [write]
  | cons c s ih =>
    have hrest := ih (p.put c)
    rw [write, List.foldl_cons, ← write]
    by_cases hc : c = 0x0A
    · subst hc
      rw [put_newline, chars_newLine] at hrest
      rw [put_newline, List.filter_cons_of_neg (by simp)]
      exact hrest
    · have hput := chars_put p hc
      rw [List.filter_cons_of_pos (by simpa using hc), List.length_cons]
      omega

/-- A line that is too long loses a character. -/
theorem chars_write_lt (hcur : p.cur.length ≤ 80)
    (h : ∃ l ∈ linesFrom 0x0A p.cur s, 80 < l.length) :
    (p.write s).chars < p.chars + (s.filter fun c => decide (c ≠ 0x0A)).length := by
  induction s generalizing p with
  | nil =>
    simp only [linesFrom_nil, List.mem_singleton, exists_eq_left] at h
    omega
  | cons c s ih =>
    rw [write, List.foldl_cons, ← write]
    by_cases hc : c = 0x0A
    · subst hc
      rw [linesFrom_newline] at h
      obtain ⟨l, hl, hlong⟩ := h
      have hrest := @ih p.newLine (Nat.zero_le _)
      rw [chars_newLine] at hrest
      rw [put_newline, List.filter_cons_of_neg (by simp)]
      obtain rfl | hl := List.mem_cons.1 hl
      · omega
      · exact hrest ⟨l, hl, hlong⟩
    · rw [linesFrom_cons hc] at h
      rw [List.filter_cons_of_pos (by simpa using hc), List.length_cons]
      by_cases hfull : 80 ≤ p.cur.length
      · -- the character is not in the new row
        have hrest := chars_write_le p.newLine s
        rw [chars_newLine] at hrest
        rw [put_full c hfull]
        omega
      · have hput := chars_put p hc
        rw [put_char hc (by omega)] at hput ⊢
        have hrest := @ih ⟨p.above, p.cur ++ [c]⟩ (by simp; omega) h
        omega

/-- A page holds what was written exactly when no line of it was too long. -/
theorem laid_write_iff (s : List (BitVec 8)) :
    Laid 0x0A 80 (empty.write s).rows s ↔ ∀ l ∈ s.splitOn 0x0A, l.length ≤ 80 := by
  have hlines := linesFrom_empty (0x0A : BitVec 8) s
  rw [← hlines]
  constructor
  · intro h
    by_contra hlong
    simp only [not_forall, not_le, exists_prop] at hlong
    have hlt := @chars_write_lt empty s (Nat.zero_le _) hlong
    rw [chars, h.flatten] at hlt
    exact absurd hlt (by simp [chars, rows, empty])
  · intro h
    have hrows := @rows_write empty s h
    rw [hrows]
    exact laid_linesFrom (by simp [empty]) h

end Page

namespace DevVga

/-- The text of row `i` of the buffer, up to its first empty cell. -/
def rowText (v : DevVga) (i : ℕ) : List (BitVec 8) :=
  cstr ((List.range 80).map fun j => (v.buffer (i * 80 + j)).text)

/-- The rows of the buffer in order, down to the row of the cursor. -/
def rowsText (v : DevVga) : List (List (BitVec 8)) := (List.range (v.currRow + 1)).map v.rowText

def run (v : DevVga) (ops : List VgaOp) : DevVga := ops.foldl step v

/-- The buffer and its cursor are as on the page. -/
structure Holds (v : DevVga) (p : Page) : Prop where
  inited : v.inited = true
  row : v.currRow = p.above.length
  col : v.currCol = p.cur.length
  width : ∀ r ∈ p.rows, r.length ≤ 80
  nonzero : ∀ r ∈ p.rows, (0 : BitVec 8) ∉ r
  cells : ∀ i < 400, ∀ j < 80, (v.buffer (i * 80 + j)).text = (p.rows.getD i []).getD j 0
  preCol : v.preCol ≤ v.currCol

variable {v : DevVga} {p : Page} {c : BitVec 8}

theorem holds_cls (v : DevVga) (hin : v.inited = true) : v.vtCls.Holds Page.empty := by
  rw [vtCls, if_neg (not_not.2 hin)]
  refine ⟨hin, rfl, rfl, by simp [Page.rows, Page.empty], by simp [Page.rows, Page.empty],
    fun i hi j hj => ?_, le_rfl⟩
  have hcell : i * 80 + j < VT_SIZE * VT_MONS := by
    rw [VT_SIZE, VT_COLUMNS, VT_ROWS, VT_MONS]
    omega
  simp only [if_pos hcell]
  rw [Page.rows_getD]
  split_ifs <;> rfl

theorem Holds.newLine (h : v.Holds p) : v._vtNewLine.Holds p.newLine := by
  obtain ⟨hinited, hrow, hcol, hwidth, hnonzero, hcells, -⟩ := h
  refine ⟨hinited, ?_, rfl, fun r hr => ?_, fun r hr => ?_, fun i hi j hj => ?_, le_rfl⟩
  · rw [Page.newLine, List.length_append, ← hrow]
    rfl
  · rw [Page.rows_newLine, List.mem_append, List.mem_singleton] at hr
    obtain hr | rfl := hr
    · exact hwidth r hr
    · exact Nat.zero_le _
  · rw [Page.rows_newLine, List.mem_append, List.mem_singleton] at hr
    obtain hr | rfl := hr
    · exact hnonzero r hr
    · exact List.not_mem_nil
  · rw [Page.rows_newLine]
    refine (hcells i hi j hj).trans ?_
    obtain hlt | hge := lt_or_ge i p.rows.length
    · rw [List.getD_append _ _ _ _ hlt]
    · rw [List.getD_append_right _ _ _ _ hge, List.getD_eq_default _ _ hge]
      cases i - p.rows.length <;> rfl

/-- The character goes to the end of the row of the cursor. -/
theorem Holds.char (h : v.Holds p) (hc : c ≠ 0) (hcol : p.cur.length < 80) :
    Holds { v with
      buffer := setText v.buffer (v.currRow * 80 + v.currCol) c
      currCol := v.currCol + 1 } ⟨p.above, p.cur ++ [c]⟩ := by
  refine ⟨h.inited, h.row, ?_, fun r hr => ?_, fun r hr => ?_, fun i hi j hj => ?_, ?_⟩
  · rw [List.length_append, ← h.col]
    rfl
  · obtain hr | hr := List.mem_append.1 hr
    · exact h.width r (List.mem_append_left _ hr)
    · rw [List.mem_singleton.1 hr, List.length_append, List.length_singleton]
      exact hcol
  · obtain hr | hr := List.mem_append.1 hr
    · exact h.nonzero r (List.mem_append_left _ hr)
    · rw [List.mem_singleton.1 hr, List.mem_append, List.mem_singleton, not_or]
      exact ⟨h.nonzero p.cur (by simp [Page.rows]), hc.symm⟩
  · have hcell := h.cells i hi j hj
    rw [Page.rows_getD] at hcell ⊢
    rw [setText_text, h.row, h.col]
    by_cases hrow : i = p.above.length
    · subst hrow
      rw [if_neg (lt_irrefl _), if_pos rfl] at hcell ⊢
      obtain hlt | heq | hgt := lt_trichotomy j p.cur.length
      · rw [if_neg (by omega), hcell, List.getD_append _ _ _ _ hlt]
      · rw [if_pos (by omega), heq, List.getD_append_right _ _ _ _ le_rfl, Nat.sub_self]
        rfl
      · rw [if_neg (by omega), hcell, List.getD_eq_default _ _ (by omega),
          List.getD_eq_default _ _ (by simp; omega)]
    · rw [if_neg (by omega), hcell, if_neg hrow]
      simp only [if_neg hrow]
  · exact Nat.le_succ_of_le h.preCol

theorem Holds.putChar (h : v.Holds p) (hc : c ≠ 0) : (v.putChar c).Holds (p.put c) := by
  have hiff : (c = 0x0A ∨ v.currCol ≥ VT_COLUMNS) ↔ (c = 0x0A ∨ 80 ≤ p.cur.length) := by
    rw [h.col]
    rfl
  rw [DevVga.putChar, Page.put]
  by_cases hline : c = 0x0A ∨ v.currCol ≥ VT_COLUMNS
  · rw [if_pos hline, if_pos (hiff.1 hline)]
    have hover : v.overflow.Holds p :=
      ⟨h.inited, h.row, h.col, h.width, h.nonzero, h.cells, h.preCol⟩
    split_ifs
    · exact hover.newLine
    · exact h.newLine
  · obtain ⟨-, hlt⟩ := not_or.1 (mt hiff.2 hline)
    rw [if_neg hline, if_neg (mt hiff.2 hline)]
    exact h.char hc (not_le.1 hlt)

theorem Holds.write (h : v.Holds p) (s : List (BitVec 8)) :
    (v._vgaTextWrite s).Holds (p.write (cstr s)) := by
  induction s generalizing v p with
  | nil => exact h
  | cons c s ih =>
    rw [_vgaTextWrite, cstr]
    by_cases hc : c = 0
    · rw [if_pos hc, List.takeWhile_cons_of_neg (by simpa using hc)]
      exact h
    · rw [if_neg hc, List.takeWhile_cons_of_pos (by simpa using hc), Page.write, List.foldl_cons]
      exact ih (h.putChar hc)

theorem Holds.flush (h : v.Holds p) : v._vtFlush.Holds p :=
  ⟨h.inited, h.row, h.col, h.width, h.nonzero, h.cells, le_rfl⟩

theorem Holds.step (h : v.Holds p) (op : VgaOp) (hop : op ≠ .cls) :
    (v.step op).Holds (p.write op.text) := by
  have hin : ¬¬v.inited = true := not_not.2 h.inited
  cases op with
  | textWrite c =>
    cases c with
    | none => exact h
    | some c =>
      simp only [DevVga.step, vgaTextWrite, if_neg hin]
      exact h.write c
  | flushWithBuf buf =>
    cases buf with
    | none => exact h
    | some buf =>
      simp only [DevVga.step, vtFlushWithBuf, if_neg hin]
      exact (h.write buf).flush
  | newLine buf =>
    cases buf with
    | none => exact h
    | some buf =>
      simp only [DevVga.step, vtNewLine, if_neg hin, VgaOp.text, Page.write_append]
      have hline := (h.write buf).newLine
      rwa [← Page.put_newline] at hline
  | flush =>
    simp only [DevVga.step, vtFlush, if_neg hin]
    exact h.flush
  | cls => exact absurd rfl hop

theorem Holds.run (h : v.Holds p) {ops : List VgaOp} (hops : ∀ op ∈ ops, op ≠ .cls) :
    (v.run ops).Holds (p.write (ops.flatMap VgaOp.text)) := by
  induction ops generalizing v p with
  | nil => exact h
  | cons op ops ih =>
    rw [List.flatMap_cons, Page.write_append]
    exact ih (h.step op (hops op (by simp))) fun op hop => hops op (List.mem_cons_of_mem _ hop)

/-- The cells of a row give back its text. -/
theorem cstr_cells {r : List (BitVec 8)} (hlen : r.length ≤ 80) (hnonzero : (0 : BitVec 8) ∉ r) :
    cstr ((List.range 80).map fun j => r.getD j 0) = r := by
  have hcells : ((List.range 80).map fun j => r.getD j 0) = r ++ List.replicate (80 - r.length) 0 := by
    apply List.ext_getElem
    · simp
      omega
    · intro j hj _
      obtain hlt | hge := lt_or_ge j r.length
      · simp [List.getElem_append_left hlt, hlt]
      · simp [List.getElem_append_right hge, hge]
  rw [hcells, cstr_append_zeros hnonzero]

theorem Holds.rowsText (h : v.Holds p) (hrow : v.currRow < 400) : v.rowsText = p.rows := by
  have hlen : p.rows.length = v.currRow + 1 := by
    rw [Page.rows, List.length_append, ← h.row]
    rfl
  apply List.ext_getElem
  · simp [DevVga.rowsText, hlen]
  · intro i hi hi'
    have hmem := List.getElem_mem hi'
    simp only [DevVga.rowsText, List.getElem_map, List.getElem_range]
    rw [rowText, ← cstr_cells (h.width _ hmem) (h.nonzero _ hmem)]
    congr 1
    apply List.map_congr_left
    intro j hj
    rw [h.cells i (by omega) j (List.mem_range.1 hj), List.getD_eq_getElem _ _ hi']

theorem StaysBelow.run {ops : List VgaOp} (h : v.StaysBelow ops) : (v.run ops).currRow < 400 := by
  induction ops generalizing v with
  | nil => exact h
  | cons op ops ih => exact ih h.2

/-- The buffer holds what was written since it was cleared exactly when no line of it has more than
80 characters. -/
theorem vga_text_laid_iff (v : DevVga) (hin : v.inited = true) (ops : List VgaOp)
    (hops : ∀ op ∈ ops, op ≠ .cls) (hbelow : v.vtCls.StaysBelow ops) :
    Laid 0x0A 80 (v.vtCls.run ops).rowsText (ops.flatMap VgaOp.text) ↔
      ∀ l ∈ (ops.flatMap VgaOp.text).splitOn 0x0A, l.length ≤ 80 := by
  rw [((holds_cls v hin).run hops).rowsText hbelow.run]
  exact Page.laid_write_iff _

/-- A word, a line end, and a line. -/
theorem vga_text_laid_iff_hello :
    Laid 0x0A 80 ((⟨fun _ => ⟨0x20, 7⟩, fun _ => ⟨0, 0⟩, 0, 0, 0, 0, true⟩ : DevVga).vtCls.run
        [.textWrite (some [0x48, 0x69]), .newLine (some [0x21]), .flushWithBuf (some [0x6F])]).rowsText
      ([.textWrite (some [0x48, 0x69]), .newLine (some [0x21]),
        .flushWithBuf (some [0x6F])].flatMap VgaOp.text) ↔
      ∀ l ∈ ([.textWrite (some [0x48, 0x69]), .newLine (some [0x21]),
        .flushWithBuf (some [0x6F])].flatMap VgaOp.text).splitOn 0x0A, l.length ≤ 80 := by
  apply vga_text_laid_iff
  · rfl
  · simp
  · exact ⟨by decide, by decide, by decide, (by decide : (_ : ℕ) < _)⟩

set_option maxRecDepth 4000 in
/-- A line of 81 characters. -/
theorem vga_text_laid_fails : ¬∀ (v : DevVga) (ops : List VgaOp), v.inited = true →
    (∀ op ∈ ops, op ≠ .cls) → v.vtCls.StaysBelow ops →
    Laid 0x0A 80 (v.vtCls.run ops).rowsText (ops.flatMap VgaOp.text) := by
  intro hall
  have hbelow : (⟨fun _ => ⟨0, 0⟩, fun _ => ⟨0, 0⟩, 0, 0, 0, 0, true⟩ : DevVga).vtCls.StaysBelow
      [.textWrite (some (List.replicate 81 0x41))] := ⟨by decide, (by decide : (_ : ℕ) < _)⟩
  have hops : ∀ op ∈ [VgaOp.textWrite (some (List.replicate 81 0x41))], op ≠ .cls := by simp
  have hlaid := hall _ _ rfl hops hbelow
  rw [((holds_cls _ rfl).run hops).rowsText hbelow.run, Page.laid_write_iff] at hlaid
  exact absurd hlaid (by decide)

end DevVga

end YohdaOS.Vga
