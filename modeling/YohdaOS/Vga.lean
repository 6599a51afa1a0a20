import Mathlib.Tactic

/-!
# vga.c

The text screen shows a part of the scroll-back buffer.  Writing goes to the buffer; a flush copies
to the screen what may have changed since the last one, from the cursor remembered then, or all rows
once the screen scrolls.
-/

namespace YohdaOS.Vga

def VT_ROWS : ℕ := 25

def VT_COLUMNS : ℕ := 80

/-- The monitors of the scroll-back buffer. -/
def VT_MONS : ℕ := 0x10

def VT_SIZE : ℕ := VT_COLUMNS * VT_ROWS

def VT_WHITE : BitVec 8 := 0xF

/-- `struct vga_text` -/
structure VgaText where
  text : BitVec 8
  attr : BitVec 8
deriving DecidableEq, Repr

/-- `struct dev_vga`, with the cells of the text memory at `bp`; the cell of the buffer in row `i` and
column `j` is number `i * 80 + j`. -/
structure DevVga where
  bp : ℕ → VgaText
  buffer : ℕ → VgaText
  currRow : ℕ
  currCol : ℕ
  preRow : ℕ
  preCol : ℕ
  inited : Bool

/-- The inner loop of `_vt_flush`, from column `j` on. -/
def flushRow (buffer : ℕ → VgaText) (i : ℕ) : ℕ → ℕ → (ℕ → VgaText) → ℕ → VgaText
  | 0, _, bp => bp
  | fuel + 1, j, bp =>
    if (buffer (i * 80 + j)).text ≠ 0 ∧ j < VT_COLUMNS then
      flushRow buffer i fuel (j + 1) (Function.update bp (i * 80 + j) (buffer (i * 80 + j)))
    else bp

/-- The outer loop: `n` rows from row `i` on.  The column does not pass 80. -/
def flushRows (buffer : ℕ → VgaText) (preCol : ℕ) : ℕ → ℕ → (ℕ → VgaText) → ℕ → VgaText
  | 0, _, bp => bp
  | n + 1, i, bp =>
    flushRows buffer preCol n (i + 1) (flushRow buffer i (VT_COLUMNS + 1) preCol bp)

namespace DevVga

def _vtFlush (v : DevVga) : DevVga :=
  let bp :=
    if v.currRow ≥ VT_ROWS then
      fun k => if k < VT_SIZE then v.buffer ((v.currRow - (VT_ROWS - 1)) * 80 + k) else v.bp k
    else flushRows v.buffer v.preCol (v.currRow + 1 - v.preRow) v.preRow v.bp
  { v with bp := bp, preRow := v.currRow, preCol := v.currCol }

def vtFlush (v : DevVga) : DevVga := if ¬v.inited then v else v._vtFlush

def _vtNewLine (v : DevVga) : DevVga :=
  { v with currRow := v.currRow + 1, currCol := 0, preRow := 0, preCol := 0 }

def setText (cells : ℕ → VgaText) (k : ℕ) (c : BitVec 8) : ℕ → VgaText :=
  Function.update cells k { cells k with text := c }

/-- The message of `_vga_text_write` when the buffer is full. -/
def overflow (v : DevVga) : DevVga :=
  { v with bp := setText (setText (setText (setText v.bp 0 0x46) 1 0x75) 1 0x63) 1 0x6B }

/-- One round of `_vga_text_write`. -/
def putChar (v : DevVga) (c : BitVec 8) : DevVga :=
  if c = 0x0A ∨ v.currCol ≥ VT_COLUMNS then
    (if v.currRow ≥ VT_MONS * VT_ROWS then v.overflow else v)._vtNewLine
  else
    { v with
      buffer := setText v.buffer (v.currRow * 80 + v.currCol) c
      currCol := v.currCol + 1 }

/-- `_vga_text_write` of a string, which ends at its first zero. -/
def _vgaTextWrite (v : DevVga) : List (BitVec 8) → DevVga
  | [] => v
  | c :: s => if c = 0 then v else (v.putChar c)._vgaTextWrite s

def vtFlushWithBuf (v : DevVga) : Option (List (BitVec 8)) → DevVga
  | none => v
  | some buf => if ¬v.inited then v else (v._vgaTextWrite buf)._vtFlush

def vtNewLine (v : DevVga) : Option (List (BitVec 8)) → DevVga
  | none => v
  | some buf => if ¬v.inited then v else (v._vgaTextWrite buf)._vtNewLine

def vgaTextWrite (v : DevVga) : Option (List (BitVec 8)) → DevVga
  | none => v
  | some c => if ¬v.inited then v else v._vgaTextWrite c

def vtCls (v : DevVga) : DevVga :=
  if ¬v.inited then v
  else
    { v with
      bp := fun k => if k < VT_SIZE then ⟨0, 0⟩ else v.bp k
      buffer := fun k => if k < VT_SIZE * VT_MONS then ⟨0, VT_WHITE⟩ else v.buffer k
      currRow := 0
      currCol := 0
      preRow := 0
      preCol := 0 }

def vgaTextInit (v : DevVga) : DevVga := ({ v with inited := true } : DevVga).vtCls

end DevVga

/-- A call of the driver; a string that is not there is a null pointer. -/
inductive VgaOp where
  | textWrite (c : Option (List (BitVec 8)))
  | flushWithBuf (buf : Option (List (BitVec 8)))
  | newLine (buf : Option (List (BitVec 8)))
  | flush
  | cls

/-- The call flushes. -/
def VgaOp.Flushes : VgaOp → Prop
  | .flushWithBuf (some _) => True
  | .flush => True
  | _ => False

namespace DevVga

def step (v : DevVga) : VgaOp → DevVga
  | .textWrite c => v.vgaTextWrite c
  | .flushWithBuf buf => v.vtFlushWithBuf buf
  | .newLine buf => v.vtNewLine buf
  | .flush => v.vtFlush
  | .cls => v.vtCls

/-- The row of the buffer that the first row of the screen shows. -/
def top (v : DevVga) : ℕ := v.currRow - (VT_ROWS - 1)

/-- The screen shows the buffer. -/
def Exact (v : DevVga) : Prop :=
  ∀ r < VT_ROWS, ∀ c < VT_COLUMNS,
    (v.bp (r * 80 + c)).text = (v.buffer ((v.top + r) * 80 + c)).text

/-- The row stays below the end of the buffer throughout the calls. -/
def StaysBelow (v : DevVga) : List VgaOp → Prop
  | [] => v.currRow < VT_MONS * VT_ROWS
  | op :: ops => v.currRow < VT_MONS * VT_ROWS ∧ (v.step op).StaysBelow ops

/-- After every flush the screen shows the buffer. -/
def FlushesExact (v : DevVga) : List VgaOp → Prop
  | [] => True
  | op :: ops => (op.Flushes → (v.step op).Exact) ∧ (v.step op).FlushesExact ops

/-! ## The invariant -/

/-- The buffer is empty from the cursor on, its rows have no gaps, and a cell that the screen does not
show yet is dark and not before the remembered cursor. -/
structure Good (v : DevVga) : Prop where
  inited : v.inited = true
  row : v.currRow < 400
  col : v.currCol ≤ 80
  preRow : v.preRow ≤ v.currRow
  preCol : v.preCol ≤ v.currCol
  ahead : ∀ k, v.currRow * 80 + v.currCol ≤ k → k < 32000 → (v.buffer k).text = 0
  noGap : ∀ i j j', i < 400 → j' ≤ j → j < 80 → (v.buffer (i * 80 + j)).text ≠ 0 →
    (v.buffer (i * 80 + j')).text ≠ 0
  filled : ∀ j < v.currCol, (v.buffer (v.currRow * 80 + j)).text ≠ 0
  shown : v.currRow < 25 → ∀ i < 25, ∀ j < 80,
    (v.bp (i * 80 + j)).text = (v.buffer (i * 80 + j)).text ∨
      (v.bp (i * 80 + j)).text = 0 ∧ v.preRow ≤ i ∧ v.preCol ≤ j

variable {v : DevVga}

theorem setText_text (cells : ℕ → VgaText) (k : ℕ) (c : BitVec 8) (l : ℕ) :
    (setText cells k c l).text = if l = k then c else (cells l).text := by
  unfold setText
  by_cases hl : l = k
  · rw [hl, Function.update_self, if_pos rfl]
  · rw [Function.update_of_ne hl, if_neg hl]

theorem good_init (v : DevVga) : v.vgaTextInit.Good := by
  have hbp : ∀ k, k < 2000 → (v.vgaTextInit.bp k).text = 0 := by
    intro k hk
    have hcell : v.vgaTextInit.bp k = ⟨0, 0⟩ := if_pos hk
    rw [hcell]
  have hbuffer : ∀ k, k < 32000 → (v.vgaTextInit.buffer k).text = 0 := by
    intro k hk
    have hcell : v.vgaTextInit.buffer k = ⟨0, VT_WHITE⟩ := if_pos hk
    rw [hcell]
  refine ⟨rfl, ?_, ?_, le_rfl, le_rfl, fun k _ hk => hbuffer k hk, ?_, ?_, ?_⟩
  · exact Nat.zero_lt_succ _
  · exact Nat.zero_le _
  · intro i j j' hi _ hj hne
    exact absurd (hbuffer (i * 80 + j) (by omega)) hne
  · intro j hj
    exact absurd hj (Nat.not_lt_zero j)
  · intro _ i hi j hj
    left
    rw [hbp _ (by omega), hbuffer _ (by omega)]

theorem Good.newLine (h : v.Good) (hrow : v.currRow + 1 < 400) : v._vtNewLine.Good := by
  obtain ⟨hinited, -, hcol, -, -, hahead, hnoGap, -, hshown⟩ := h
  refine ⟨hinited, hrow, Nat.zero_le _, Nat.zero_le _, le_rfl, fun k hk hlt => ?_, hnoGap,
    fun j hj => absurd hj (Nat.not_lt_zero j), fun hlt i hi j hj => ?_⟩
  · have hnext : (v.currRow + 1) * 80 + 0 ≤ k := hk
    exact hahead k (by omega) hlt
  · have hprev : v.currRow + 1 < 25 := hlt
    rcases hshown (by omega) i hi j hj with heq | ⟨hdark, -, -⟩
    · exact Or.inl heq
    · exact Or.inr ⟨hdark, Nat.zero_le _, Nat.zero_le _⟩

/-- One character keeps the invariant, unless it begins a row behind the buffer. -/
theorem Good.putChar (h : v.Good) {c : BitVec 8} (hc : c ≠ 0) (hrow : (v.putChar c).currRow < 400) :
    (v.putChar c).Good := by
  have hbelow : ¬v.currRow ≥ VT_MONS * VT_ROWS := by
    have := h.row
    rw [VT_MONS, VT_ROWS]
    omega
  unfold DevVga.putChar at hrow ⊢
  by_cases hline : c = 0x0A ∨ v.currCol ≥ VT_COLUMNS
  · rw [if_pos hline, if_neg hbelow] at hrow ⊢
    exact h.newLine hrow
  · rw [if_neg hline]
    obtain ⟨-, hcol⟩ := not_or.1 hline
    have hlt : v.currCol < 80 := not_le.1 hcol
    obtain ⟨hinited, hr, -, hpreRow, hpreCol, hahead, hnoGap, hfilled, hshown⟩ := h
    have hempty : (v.buffer (v.currRow * 80 + v.currCol)).text = 0 := hahead _ le_rfl (by omega)
    refine ⟨hinited, hr, hlt, hpreRow, ?_, fun k hk hk' => ?_, fun i j j' hi hj' hj hne => ?_,
      fun j hj => ?_, fun hr25 i hi j hj => ?_⟩
    · exact Nat.le_succ_of_le hpreCol
    · have hnext : v.currRow * 80 + (v.currCol + 1) ≤ k := hk
      rw [setText_text, if_neg (by omega)]
      exact hahead k (by omega) hk'
    · rw [setText_text] at hne ⊢
      by_cases hnew : i * 80 + j' = v.currRow * 80 + v.currCol
      · rw [if_pos hnew]
        exact hc
      · rw [if_neg hnew]
        by_cases hat : i * 80 + j = v.currRow * 80 + v.currCol
        · -- the new character ends its row, the cells before it are filled
          have hi' : i = v.currRow := by omega
          rw [hi']
          exact hfilled j' (by omega)
        · rw [if_neg hat] at hne
          exact hnoGap i j j' hi hj' hj hne
    · have hj' : j < v.currCol + 1 := hj
      rw [setText_text]
      split_ifs with hat
      · exact hc
      · have hbefore : v.currRow * 80 + j ≠ v.currRow * 80 + v.currCol := hat
        exact hfilled j (by omega)
    · rw [setText_text]
      by_cases hat : i * 80 + j = v.currRow * 80 + v.currCol
      · right
        have hi' : i = v.currRow := by omega
        have hj' : j = v.currCol := by omega
        refine ⟨?_, hpreRow.trans hi'.ge, hpreCol.trans hj'.ge⟩
        rcases hshown hr25 i hi j hj with heq | ⟨hdark, -, -⟩
        · rw [hat] at heq ⊢
          exact heq.trans hempty
        · exact hdark
      · rw [if_neg hat]
        exact hshown hr25 i hi j hj

theorem currRow_putChar (v : DevVga) (c : BitVec 8) : v.currRow ≤ (v.putChar c).currRow := by
  unfold DevVga.putChar
  split_ifs
  · exact Nat.le_succ _
  · exact Nat.le_succ _
  · exact le_rfl

theorem currRow_write (v : DevVga) (s : List (BitVec 8)) : v.currRow ≤ (v._vgaTextWrite s).currRow := by
  induction s generalizing v with
  | nil => exact le_rfl
  | cons c s ih =>
    rw [_vgaTextWrite]
    split_ifs
    · exact le_rfl
    · exact (currRow_putChar v c).trans (ih _)

theorem Good.write (h : v.Good) (s : List (BitVec 8)) (hrow : (v._vgaTextWrite s).currRow < 400) :
    (v._vgaTextWrite s).Good := by
  induction s generalizing v with
  | nil => exact h
  | cons c s ih =>
    rw [_vgaTextWrite] at hrow ⊢
    by_cases hc : c = 0
    · rw [if_pos hc]
      exact h
    · rw [if_neg hc] at hrow ⊢
      exact ih (h.putChar hc ((currRow_write _ s).trans_lt hrow)) hrow

/-! ## Flushing -/

variable {buffer bp : ℕ → VgaText}

/-- A cell of the screen is left as it is or takes the value of the buffer. -/
theorem flushRow_cases (buffer bp : ℕ → VgaText) (i fuel j k : ℕ) :
    flushRow buffer i fuel j bp k = bp k ∨ flushRow buffer i fuel j bp k = buffer k := by
  induction fuel generalizing j bp with
  | zero => exact Or.inl rfl
  | succ fuel ih =>
    rw [flushRow]
    split_ifs
    · rcases @ih (Function.update bp (i * 80 + j) (buffer (i * 80 + j))) (j + 1) with h | h
      · rw [h]
        by_cases hk : k = i * 80 + j
        · right
          rw [hk, Function.update_self]
        · left
          rw [Function.update_of_ne hk]
      · exact Or.inr h
    · exact Or.inl rfl

theorem flushRows_cases (buffer bp : ℕ → VgaText) (preCol n i k : ℕ) :
    flushRows buffer preCol n i bp k = bp k ∨ flushRows buffer preCol n i bp k = buffer k := by
  induction n generalizing i bp with
  | zero => exact Or.inl rfl
  | succ n ih =>
    rw [flushRows]
    rcases @ih (flushRow buffer i (VT_COLUMNS + 1) preCol bp) (i + 1) with h | h
    · rw [h]
      exact flushRow_cases _ _ _ _ _ _
    · exact Or.inr h

/-- The row is copied as far as it has no gap. -/
theorem flushRow_copies {i fuel j j' : ℕ} (hj : j ≤ j') (hj' : j' < 80) (hfuel : j' < j + fuel)
    (hfull : ∀ x, j ≤ x → x ≤ j' → (buffer (i * 80 + x)).text ≠ 0) :
    flushRow buffer i fuel j bp (i * 80 + j') = buffer (i * 80 + j') := by
  induction fuel generalizing j bp with
  | zero => omega
  | succ fuel ih =>
    have hcopy : (buffer (i * 80 + j)).text ≠ 0 ∧ j < VT_COLUMNS :=
      ⟨hfull j le_rfl hj, lt_of_le_of_lt hj hj'⟩
    rw [flushRow, if_pos hcopy]
    rcases eq_or_lt_of_le hj with rfl | hlt
    · rcases flushRow_cases buffer (Function.update bp (i * 80 + j) (buffer (i * 80 + j))) i fuel
        (j + 1) (i * 80 + j) with h | h
      · rw [h, Function.update_self]
      · exact h
    · exact ih hlt (by omega) fun x hx => hfull x (by omega)

theorem flushRows_copies {preCol n i i' j' : ℕ} (hi : i ≤ i') (hi' : i' < i + n) (hj : preCol ≤ j')
    (hj' : j' < 80) (hfull : ∀ x ≤ j', (buffer (i' * 80 + x)).text ≠ 0) :
    flushRows buffer preCol n i bp (i' * 80 + j') = buffer (i' * 80 + j') := by
  induction n generalizing i bp with
  | zero => omega
  | succ n ih =>
    rw [flushRows]
    rcases eq_or_lt_of_le hi with rfl | hlt
    · rcases flushRows_cases buffer (flushRow buffer i (VT_COLUMNS + 1) preCol bp) preCol n (i + 1)
        (i * 80 + j') with h | h
      · rw [h]
        exact flushRow_copies hj hj' (by rw [VT_COLUMNS]; omega) fun x _ hx => hfull x hx
      · exact h
    · exact ih hlt (by omega)

/-- The flush from the remembered cursor shows what a full redraw would show. -/
theorem Good.exact_flush (h : v.Good) : v._vtFlush.Exact := by
  intro r hr c hc
  have hr25 : r < 25 := hr
  have hc80 : c < 80 := hc
  by_cases hscroll : v.currRow ≥ VT_ROWS
  · have hbp : v._vtFlush.bp (r * 80 + c) = v.buffer ((v.currRow - (VT_ROWS - 1)) * 80 + (r * 80 + c)) := by
      have hk : r * 80 + c < VT_SIZE := by
        rw [VT_SIZE, VT_ROWS, VT_COLUMNS]
        omega
      simp only [_vtFlush, if_pos hscroll, if_pos hk]
    rw [hbp, ← Nat.add_assoc, ← Nat.add_mul]
    rfl
  · have hlt : v.currRow < 25 := not_le.1 hscroll
    have htop : v._vtFlush.top = 0 := Nat.sub_eq_zero_of_le (Nat.le_of_lt_succ hlt)
    have hbp : v._vtFlush.bp =
        flushRows v.buffer v.preCol (v.currRow + 1 - v.preRow) v.preRow v.bp := by
      simp only [_vtFlush, if_neg hscroll]
    rw [htop, Nat.zero_add, hbp]
    change _ = (v.buffer (r * 80 + c)).text
    rcases flushRows_cases v.buffer v.bp v.preCol (v.currRow + 1 - v.preRow) v.preRow (r * 80 + c)
      with hkeep | hcopy
    · rcases h.shown hlt r hr25 c hc80 with heq | ⟨hdark, hrow, hcol⟩
      · rw [hkeep, heq]
      · by_cases hempty : (v.buffer (r * 80 + c)).text = 0
        · rw [hkeep, hdark, hempty]
        · -- a cell that is not empty is in a row the loop reaches
          have hpre := h.preRow
          have hreach : r ≤ v.currRow := by
            by_contra hbeyond
            have hcolumn := h.col
            exact hempty (h.ahead _ (by omega) (by omega))
          rw [flushRows_copies hrow (by omega) hcol hc80
            fun x hx => h.noGap r c x (by omega) hx hc80 hempty]
    · rw [hcopy]

theorem Good.flush (h : v.Good) : v._vtFlush.Good := by
  have hexact := h.exact_flush
  obtain ⟨hinited, hrow, hcol, -, -, hahead, hnoGap, hfilled, -⟩ := h
  refine ⟨hinited, hrow, hcol, le_rfl, le_rfl, hahead, hnoGap, hfilled, fun hlt i hi j hj => ?_⟩
  have htop : v._vtFlush.top = 0 := Nat.sub_eq_zero_of_le (Nat.le_of_lt_succ hlt)
  have hshow := hexact i hi j hj
  rw [htop, Nat.zero_add] at hshow
  exact Or.inl hshow

/-! ## Runs -/

theorem Good.cls (h : v.Good) : v.vtCls.Good := by
  have hinit : v.vgaTextInit = v.vtCls := by
    obtain ⟨bp, buffer, r, c, pr, pc, inited⟩ := v
    obtain rfl : inited = true := h.inited
    rfl
  rw [← hinit]
  exact good_init v

theorem Good.step (h : v.Good) (op : VgaOp) (hrow : (v.step op).currRow < 400) :
    (v.step op).Good ∧ (op.Flushes → (v.step op).Exact) := by
  have hin : ¬¬v.inited = true := not_not.2 h.inited
  cases op with
  | textWrite c =>
    refine ⟨?_, False.elim⟩
    cases c with
    | none => exact h
    | some c =>
      simp only [DevVga.step, vgaTextWrite, if_neg hin] at hrow ⊢
      exact h.write c hrow
  | flushWithBuf buf =>
    cases buf with
    | none => exact ⟨h, False.elim⟩
    | some buf =>
      simp only [DevVga.step, vtFlushWithBuf, if_neg hin] at hrow ⊢
      have hwrite := h.write buf hrow
      exact ⟨hwrite.flush, fun _ => hwrite.exact_flush⟩
  | newLine buf =>
    refine ⟨?_, False.elim⟩
    cases buf with
    | none => exact h
    | some buf =>
      simp only [DevVga.step, vtNewLine, if_neg hin] at hrow ⊢
      exact (h.write buf (lt_of_le_of_lt (Nat.le_succ _) hrow)).newLine hrow
  | flush =>
    simp only [DevVga.step, vtFlush, if_neg hin]
    exact ⟨h.flush, fun _ => h.exact_flush⟩
  | cls => exact ⟨h.cls, False.elim⟩

theorem StaysBelow.row {ops : List VgaOp} (h : v.StaysBelow ops) : v.currRow < 400 := by
  cases ops with
  | nil => exact h
  | cons op ops => exact h.1

theorem Good.flushesExact (h : v.Good) {ops : List VgaOp} (hbelow : v.StaysBelow ops) :
    v.FlushesExact ops := by
  induction ops generalizing v with
  | nil => trivial
  | cons op ops ih =>
    obtain ⟨hgood, hexact⟩ := h.step op hbelow.2.row
    exact ⟨hexact, ih hgood hbelow.2⟩

/-- The screen is an exact view of the scroll-back buffer after every flush. -/
theorem vga_flushes_exact (v : DevVga) (ops : List VgaOp) (hbelow : v.vgaTextInit.StaysBelow ops) :
    v.vgaTextInit.FlushesExact ops :=
  (good_init v).flushesExact hbelow

/-- A line, a flush, and a word in the next line that is flushed at once. -/
theorem vga_flushes_exact_hello :
    (⟨fun _ => ⟨0x20, 7⟩, fun _ => ⟨0, 0⟩, 0, 0, 0, 0, false⟩ : DevVga).vgaTextInit.FlushesExact
      [.textWrite (some [0x48, 0x69, 0x0A]), .flush, .flushWithBuf (some [0x6F, 0x6B])] := by
  apply vga_flushes_exact
  exact ⟨by decide, by decide, by decide, (by decide : (_ : ℕ) < _)⟩

end DevVga

end YohdaOS.Vga
