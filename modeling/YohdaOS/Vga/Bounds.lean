import YohdaOS.Vga.Page

/-!
# The cells that are read and written

The row of the cursor only grows, and a row is read up to its first empty cell, which a full row does
not have.
-/

namespace YohdaOS.Vga

namespace DevVga

/-- The cells, row and column, that one round of `_vga_text_write` writes. -/
def putAccesses (v : DevVga) (c : BitVec 8) : List (ℕ × ℕ) :=
  if c = 0x0A ∨ v.currCol ≥ VT_COLUMNS then [] else [(v.currRow, v.currCol)]

def writeAccesses (v : DevVga) : List (BitVec 8) → List (ℕ × ℕ)
  | [] => []
  | c :: s => if c = 0 then [] else v.putAccesses c ++ (v.putChar c).writeAccesses s

/-- The cells that the inner loop of `_vt_flush` reads: the cell is read before its column is
compared. -/
def flushRowReads (buffer : ℕ → VgaText) (i : ℕ) : ℕ → ℕ → List (ℕ × ℕ)
  | 0, _ => []
  | fuel + 1, j =>
    (i, j) ::
      if (buffer (i * 80 + j)).text ≠ 0 ∧ j < VT_COLUMNS then flushRowReads buffer i fuel (j + 1)
      else []

/-- The cells that `_vt_flush` reads. -/
def flushReads (v : DevVga) : List (ℕ × ℕ) :=
  if v.currRow ≥ VT_ROWS then
    (List.range VT_SIZE).map fun k => (v.currRow - (VT_ROWS - 1) + k / 80, k % 80)
  else
    (List.range' v.preRow (v.currRow + 1 - v.preRow)).flatMap fun i =>
      flushRowReads v.buffer i (VT_COLUMNS + 1) v.preCol

/-- The cells that the call reads and writes. -/
def accesses (v : DevVga) : VgaOp → List (ℕ × ℕ)
  | .textWrite (some c) => if ¬v.inited then [] else v.writeAccesses c
  | .flushWithBuf (some buf) =>
    if ¬v.inited then [] else v.writeAccesses buf ++ (v._vgaTextWrite buf).flushReads
  | .newLine (some buf) => if ¬v.inited then [] else v.writeAccesses buf
  | .flush => if ¬v.inited then [] else v.flushReads
  | _ => []

def runAccesses (v : DevVga) : List VgaOp → List (ℕ × ℕ)
  | [] => []
  | op :: ops => v.accesses op ++ (v.step op).runAccesses ops

/-- The cells are in the buffer. -/
def InBuffer (l : List (ℕ × ℕ)) : Prop := ∀ a ∈ l, a.1 < VT_MONS * VT_ROWS ∧ a.2 < VT_COLUMNS

end DevVga

namespace Page

/-- The page behind the call. -/
def step (p : Page) : VgaOp → Page
  | .cls => empty
  | op => p.write op.text

/-- No character goes into a row behind the buffer. -/
def Below (p : Page) : List (BitVec 8) → Prop
  | [] => True
  | c :: s => (c ≠ 0x0A → p.cur.length < 80 → p.above.length < 400) ∧ (p.put c).Below s

/-- The cursor is in the buffer, and no row is full while the screen does not scroll. -/
def Flushable (p : Page) : Prop :=
  p.above.length < 400 ∧ (p.above.length < 25 → ∀ r ∈ p.rows, r.length < 80)

/-- The call writes into the buffer, and a flush finds no row full. -/
def Fits (p : Page) : VgaOp → Prop
  | .textWrite (some c) => p.Below (cstr c)
  | .flushWithBuf (some buf) => p.Below (cstr buf) ∧ (p.write (cstr buf)).Flushable
  | .newLine (some buf) => p.Below (cstr buf)
  | .flush => p.Flushable
  | _ => True

def FitsRun (p : Page) : List VgaOp → Prop
  | [] => True
  | op :: ops => p.Fits op ∧ (p.step op).FitsRun ops

end Page

namespace DevVga

variable {v : DevVga} {p : Page} {buffer : ℕ → VgaText} {i j len fuel : ℕ}

theorem inBuffer_nil : InBuffer [] := fun _ ha => absurd ha List.not_mem_nil

theorem InBuffer.append {l l' : List (ℕ × ℕ)} (h : InBuffer l) (h' : InBuffer l') :
    InBuffer (l ++ l') := by
  intro a ha
  obtain ha | ha := List.mem_append.1 ha
  · exact h a ha
  · exact h' a ha

theorem Holds.putAccesses (h : v.Holds p) {c : BitVec 8}
    (hrow : c ≠ 0x0A → p.cur.length < 80 → p.above.length < 400) :
    InBuffer (v.putAccesses c) := by
  rw [DevVga.putAccesses]
  split_ifs with hline
  · exact inBuffer_nil
  · obtain ⟨hc, hcol⟩ := not_or.1 hline
    have hlt : v.currCol < 80 := not_le.1 hcol
    intro a ha
    rw [List.mem_singleton.1 ha]
    refine ⟨?_, hlt⟩
    have habove := hrow hc (by rwa [← h.col])
    rwa [← h.row] at habove

theorem Holds.writeAccesses (h : v.Holds p) (s : List (BitVec 8)) (hbelow : p.Below (cstr s)) :
    InBuffer (v.writeAccesses s) := by
  induction s generalizing v p with
  | nil => exact inBuffer_nil
  | cons c s ih =>
    rw [DevVga.writeAccesses]
    by_cases hc : c = 0
    · rw [if_pos hc]
      exact inBuffer_nil
    · rw [cstr, List.takeWhile_cons_of_pos (by simpa using hc)] at hbelow
      rw [if_neg hc]
      exact (h.putAccesses hbelow.1).append (ih (h.putChar hc) hbelow.2)

/-- The reads stop in the row where it is not full. -/
theorem flushRowReads_col (hlen : len < 80)
    (hempty : ∀ j, len ≤ j → j < 80 → (buffer (i * 80 + j)).text = 0) (hj : j < 80) :
    ∀ a ∈ flushRowReads buffer i fuel j, a.1 = i ∧ a.2 < 80 := by
  induction fuel generalizing j with
  | zero => exact fun a ha => absurd ha List.not_mem_nil
  | succ fuel ih =>
    intro a ha
    rw [flushRowReads] at ha
    obtain rfl | ha := List.mem_cons.1 ha
    · exact ⟨rfl, hj⟩
    · split_ifs at ha with hnext
      · have hbefore : j < len := by
          by_contra hge
          exact hnext.1 (hempty j (by omega) hj)
        exact ih (by omega) a ha
      · exact absurd ha List.not_mem_nil

theorem Holds.flushReads (h : v.Holds p) (hflush : p.Flushable) : InBuffer v.flushReads := by
  obtain ⟨hbelow, hfull⟩ := hflush
  rw [← h.row] at hbelow hfull
  rw [DevVga.flushReads]
  intro a ha
  split_ifs at ha with hscroll
  · obtain ⟨k, hk, rfl⟩ := List.mem_map.1 ha
    have hk' : k < 2000 := List.mem_range.1 hk
    have hrow : 25 ≤ v.currRow := hscroll
    simp only [VT_MONS, VT_ROWS, VT_COLUMNS]
    omega
  · have hrow : v.currRow < 25 := not_le.1 hscroll
    obtain ⟨i, hi, ha⟩ := List.mem_flatMap.1 ha
    have hpre := h.preCol
    have hcur := hfull hrow p.cur (by simp [Page.rows])
    rw [← h.col] at hcur
    obtain ⟨hlo, hhi⟩ := List.mem_range'_1.1 hi
    have hi' : i < p.rows.length := by
      simp only [Page.rows, List.length_append, List.length_singleton, ← h.row]
      omega
    have hreads := flushRowReads_col (hfull hrow _ (List.getElem_mem hi')) (fun j hj hj80 => ?_)
      (show v.preCol < 80 by omega) a ha
    · rw [hreads.1]
      exact ⟨show i < 400 by omega, hreads.2⟩
    · rw [h.cells i (by omega) j hj80, List.getD_eq_getElem _ _ hi', List.getD_eq_default _ _ hj]

/-- A call that fits reads and writes cells of the buffer. -/
theorem Holds.accesses (h : v.Holds p) (op : VgaOp) (hfits : p.Fits op) :
    InBuffer (v.accesses op) := by
  have hin : ¬¬v.inited = true := not_not.2 h.inited
  cases op with
  | textWrite c =>
    cases c with
    | none => exact inBuffer_nil
    | some c =>
      rw [DevVga.accesses, if_neg hin]
      exact h.writeAccesses c hfits
  | flushWithBuf buf =>
    cases buf with
    | none => exact inBuffer_nil
    | some buf =>
      rw [DevVga.accesses, if_neg hin]
      exact (h.writeAccesses buf hfits.1).append ((h.write buf).flushReads hfits.2)
  | newLine buf =>
    cases buf with
    | none => exact inBuffer_nil
    | some buf =>
      rw [DevVga.accesses, if_neg hin]
      exact h.writeAccesses buf hfits
  | flush =>
    rw [DevVga.accesses, if_neg hin]
    exact h.flushReads hfits
  | cls => exact inBuffer_nil

theorem Holds.stepPage (h : v.Holds p) (op : VgaOp) : (v.step op).Holds (p.step op) := by
  cases op with
  | cls => exact holds_cls v h.inited
  | textWrite c => exact h.step _ (by simp)
  | flushWithBuf buf => exact h.step _ (by simp)
  | newLine buf => exact h.step _ (by simp)
  | flush => exact h.step _ (by simp)

theorem Holds.runAccesses (h : v.Holds p) {ops : List VgaOp} (hfits : p.FitsRun ops) :
    InBuffer (v.runAccesses ops) := by
  induction ops generalizing v p with
  | nil => exact inBuffer_nil
  | cons op ops ih => exact (h.accesses op hfits.1).append (ih (h.stepPage op) hfits.2)

/-- In a run whose calls fit, all cells that are read and written are in the buffer. -/
theorem vga_accesses_in_buffer (v : DevVga) (ops : List VgaOp) (hfits : Page.empty.FitsRun ops) :
    InBuffer (v.vgaTextInit.runAccesses ops) :=
  (holds_cls { v with inited := true } rfl).runAccesses hfits

theorem vga_accesses_in_buffer_hello :
    InBuffer ((⟨fun _ => ⟨0x20, 7⟩, fun _ => ⟨0, 0⟩, 0, 0, 0, 0, false⟩ : DevVga).vgaTextInit.runAccesses
      [.textWrite (some [0x48, 0x69, 0x0A]), .flush, .flushWithBuf (some [0x6F, 0x6B])]) := by
  apply vga_accesses_in_buffer
  simp [Page.FitsRun, Page.Fits, Page.Below, Page.Flushable, cstr, VgaOp.text, Page.step, Page.write,
    Page.put, Page.newLine, Page.rows, Page.empty]

/-- 400 line ends and a character. -/
theorem vga_accesses_fails : ¬∀ (v : DevVga) (ops : List VgaOp),
    InBuffer (v.vgaTextInit.runAccesses ops) := by
  intro hall
  have h := hall ⟨fun _ => ⟨0, 0⟩, fun _ => ⟨0, 0⟩, 0, 0, 0, 0, false⟩
    [.textWrite (some (List.replicate 400 0x0A ++ [0x41]))] (400, 0) (by decide +kernel)
  exact absurd h.1 (by decide)

end DevVga

end YohdaOS.Vga
