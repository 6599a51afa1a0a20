import YohdaOS.Io.Format
import YohdaOS.Vga.Page

/-!
# From the format to the screen

`kprintf` hands the text of a format to the console, which writes it into the scroll-back buffer and
flushes.  What the screen shows then are the last rows of all that was printed.
-/

namespace YohdaOS.Io

open Vga Lines

/-- A call of `kprintf`. -/
structure Print where
  caller : Caller
  fmt : List (BitVec 8)

/-- The static `parse` and the console. -/
structure Console where
  parse : Option Parse
  vga : DevVga

/-- `kprintf`; `none` where an access of `vkprintf` is not in bounds. -/
def Console.kprintf (s : Console) (p : Print) : Option Console :=
  (vkprintf p.caller s.parse p.fmt).map fun r => ⟨r.2, s.vga.vtFlushWithBuf (some r.1)⟩

def Console.run (s : Console) (ps : List Print) : Option Console := ps.foldlM Console.kprintf s

/-- What a call prints. -/
def Print.text (p : Print) : List (BitVec 8) := expand p.caller 0 ((cstr p.fmt).filter visible)

/-- The format is one that `kprintf` knows, and there is room for its text. -/
structure Print.Ok (p : Print) : Prop where
  ascii : ∀ c ∈ cstr p.fmt, c.toNat < 128
  proper : Proper p.caller 0 ((cstr p.fmt).filter visible)
  room : p.text.length + 12 ≤ IO_STR_LEN

/-- The screen shows the last 25 of the lines. -/
def ShowsLast (v : DevVga) (lines : List (List (BitVec 8))) : Prop :=
  ∀ r < VT_ROWS, ∀ c < VT_COLUMNS,
    (v.bp (r * 80 + c)).text = ((lines.drop (lines.length - VT_ROWS)).getD r []).getD c 0

variable {v : DevVga} {q : Page} {p : Print} {ps : List Print}

/-- The string that is flushed ends at the first zero of the array. -/
theorem notMem_text {f : Printf} {t : List (BitVec 8)} (h : f.text = some t) : (0 : BitVec 8) ∉ t := by
  obtain ⟨n, hn, rfl⟩ := Option.map_eq_some_iff.1 h
  intro hzero
  obtain ⟨j, hj, hbyte⟩ := List.mem_map.1 hzero
  rw [PrInfo.strlen, List.find?_range_eq_some] at hn
  have hne := hn.2.2 j (List.mem_range.1 hj)
  rw [hbyte] at hne
  exact absurd hne (by decide)

/-- A call writes its text and flushes. -/
theorem kprintf_eq (hp : p.Ok) (s : Console) :
    ∃ parse, s.kprintf p = some ⟨parse, s.vga.vtFlushWithBuf (some p.text)⟩ ∧ cstr p.text = p.text := by
  have hroom := hp.room
  rw [IO_STR_LEN] at hroom
  obtain ⟨ps, hps, hexpand⟩ := pieces_expand s.parse hp.proper (by
    rw [Text.INT_MAX, ← Print.text]; omega)
  have hfit : FitBehind p.caller ([] : List (BitVec 8)).length ps := by
    apply fitBehind_of_le
    rw [hexpand, List.length_nil, IO_STR_LEN, ← Print.text]
    omega
  have hfst : (vkprintf p.caller s.parse p.fmt).map Prod.fst = some p.text := by
    rw [vkprintf_eq, if_pos hp.ascii, hps, Option.bind_some, withPieces, if_pos hfit, hexpand,
      List.nil_append, Print.text]
  obtain ⟨⟨text, parse⟩, hrun, htext⟩ := Option.map_eq_some_iff.1 hfst
  obtain rfl : text = p.text := htext
  refine ⟨parse, by rw [Console.kprintf, hrun, Option.map_some], cstr_of_notMem ?_⟩
  obtain ⟨f, -, hf⟩ := Option.bind_eq_some_iff.1 hrun
  obtain ⟨t, ht, hpair⟩ := Option.bind_eq_some_iff.1 hf
  obtain ⟨rfl, -⟩ := Prod.mk.inj (Option.some.inj hpair)
  exact notMem_text ht

/-! ## The page grows -/

theorem above_put (q : Page) (c : BitVec 8) : q.above.length ≤ (q.put c).above.length := by
  unfold Page.put
  split_ifs
  · rw [Page.newLine, List.length_append]
    exact Nat.le_add_right _ _
  · exact le_rfl

theorem above_write (q : Page) (s : List (BitVec 8)) :
    q.above.length ≤ (q.write s).above.length := by
  induction s generalizing q with
  | nil => exact le_rfl
  | cons c s ih => exact (above_put q c).trans (ih (q.put c))

/-- The state of the console: its invariant, the page that the buffer holds, and an exact screen. -/
structure Shown (v : DevVga) (q : Page) : Prop where
  good : v.Good
  holds : v.Holds q
  exact : v.Exact

/-- The screen and the buffer are both empty. -/
theorem shown_init (v : DevVga) : Shown v.vgaTextInit Page.empty := by
  refine ⟨DevVga.good_init v, DevVga.holds_cls _ rfl, fun r hr c hc => ?_⟩
  have hr25 : r < 25 := hr
  have hc80 : c < 80 := hc
  have htop : v.vgaTextInit.top = 0 := rfl
  have hbp : v.vgaTextInit.bp (r * 80 + c) = ⟨0, 0⟩ :=
    if_pos (by rw [VT_SIZE, VT_COLUMNS, VT_ROWS]; omega)
  have hbuffer : v.vgaTextInit.buffer (r * 80 + c) = ⟨0, VT_WHITE⟩ :=
    if_pos (by rw [VT_SIZE, VT_COLUMNS, VT_ROWS, VT_MONS]; omega)
  rw [htop, Nat.zero_add, hbp, hbuffer]

theorem Shown.print (h : Shown v q) {text : List (BitVec 8)} (htext : cstr text = text)
    (hrow : (q.write text).above.length < 400) :
    Shown (v.vtFlushWithBuf (some text)) (q.write text) := by
  have hin : ¬¬v.inited = true := not_not.2 h.good.inited
  have hholds := h.holds.write text
  rw [htext] at hholds
  have hgood := h.good.write text (by rw [hholds.row]; exact hrow)
  rw [DevVga.vtFlushWithBuf, if_neg hin]
  exact ⟨hgood.flush, hholds.flush, hgood.exact_flush⟩

theorem Shown.run (h : Shown v q) (parse : Option Parse) (hok : ∀ p ∈ ps, p.Ok)
    (hrow : (q.write (ps.flatMap Print.text)).above.length < 400) :
    ∃ s, Console.run ⟨parse, v⟩ ps = some s ∧ Shown s.vga (q.write (ps.flatMap Print.text)) := by
  induction ps generalizing v q parse with
  | nil => exact ⟨_, rfl, h⟩
  | cons p ps ih =>
    rw [List.flatMap_cons, Page.write_append] at hrow ⊢
    obtain ⟨parse', hcall, htext⟩ := kprintf_eq (hok p List.mem_cons_self) ⟨parse, v⟩
    have hnext := h.print htext ((above_write _ _).trans_lt hrow)
    obtain ⟨s, hrun, hs⟩ := ih hnext parse' (fun p hp => hok p (List.mem_cons_of_mem _ hp)) hrow
    refine ⟨s, ?_, hs⟩
    rw [Console.run, List.foldlM_cons, hcall]
    exact hrun

/-- An exact screen shows the last rows of the page. -/
theorem Shown.last (h : Shown v q) (hrow : q.above.length < 400) : ShowsLast v q.rows := by
  intro r hr c hc
  have hlen : q.rows.length = q.above.length + 1 := by
    rw [Page.rows, List.length_append, List.length_singleton]
  have htop : v.top = q.rows.length - VT_ROWS := by
    rw [DevVga.top, h.holds.row, hlen, VT_ROWS]
    omega
  have hdrop : (q.rows.drop (q.rows.length - VT_ROWS)).getD r [] =
      q.rows.getD (q.rows.length - VT_ROWS + r) [] := by
    rw [List.getD_eq_getElem?_getD, List.getElem?_drop, ← List.getD_eq_getElem?_getD]
  rw [h.exact r hr c hc, h.holds.cells _ ?_ c hc, htop, hdrop]
  rw [VT_ROWS] at htop hr
  omega

/-- After any calls of `kprintf` with formats that it knows and no line longer than 80 characters, the
screen shows the last 25 of the lines that were printed. -/
theorem kprintf_shown (v : DevVga) (parse : Option Parse) (ps : List Print) (hok : ∀ p ∈ ps, p.Ok)
    (hlines : ∀ l ∈ (ps.flatMap Print.text).splitOn 0x0A, l.length ≤ VT_COLUMNS)
    (hcount : ((ps.flatMap Print.text).splitOn 0x0A).length ≤ VT_MONS * VT_ROWS) :
    ∃ s, Console.run ⟨parse, v.vgaTextInit⟩ ps = some s ∧
      ShowsLast s.vga ((ps.flatMap Print.text).splitOn 0x0A) := by
  have hrows : (Page.empty.write (ps.flatMap Print.text)).rows =
      (ps.flatMap Print.text).splitOn 0x0A := by
    rw [Page.rows_write (by simpa [Page.empty, VT_COLUMNS] using hlines)]
    simp [Page.empty]
  have hrow : (Page.empty.write (ps.flatMap Print.text)).above.length < 400 := by
    have hlen := congrArg List.length hrows
    rw [Page.rows, List.length_append, List.length_singleton] at hlen
    rw [VT_MONS, VT_ROWS] at hcount
    omega
  obtain ⟨s, hrun, hs⟩ := (shown_init v).run parse hok hrow
  have hlast := hs.last hrow
  rw [hrows] at hlast
  exact ⟨s, hrun, hlast⟩

/-- Twice "%d" and a line end, for 4 and then for 2. -/
theorem kprintf_shown_digits : ∃ s,
    Console.run ⟨none, (⟨fun _ => ⟨0x20, 7⟩, fun _ => ⟨0, 0⟩, 3, 0, 0, 0, true⟩ : DevVga).vgaTextInit⟩
      [⟨⟨fun _ => 4, fun _ => []⟩, [0x25, 0x64, 0x0A, 0]⟩,
        ⟨⟨fun _ => 2, fun _ => []⟩, [0x25, 0x64, 0x0A, 0]⟩] = some s ∧
      ShowsLast s.vga [[0x34], [0x32], []] := by
  have hok : ∀ w ∈ [(4 : BitVec 32), 2],
      Print.Ok ⟨⟨fun _ => w, fun _ => []⟩, [0x25, 0x64, 0x0A, 0]⟩ := by
    intro w hw
    have hw : w = 4 ∨ w = 2 := by simpa using hw
    rcases hw with rfl | rfl
    · exact ⟨by decide, by simp [cstr, visible, Proper, ArgOk], by decide⟩
    · exact ⟨by decide, by simp [cstr, visible, Proper, ArgOk], by decide⟩
  apply kprintf_shown
  · intro p hp
    rcases List.mem_pair.1 hp with rfl | rfl
    · exact hok 4 (by simp)
    · exact hok 2 (by simp)
  · decide
  · decide

end YohdaOS.Io
