import YohdaOS.Buddy.Frame
import YohdaOS.Buddy.InitSpec

/-!
# The blocks of order 0

The lazy layer asks the buddy for pages and gives pages back.  On such calls the bits of order 0 say
which pages are out, whatever the bitmaps of the other orders hold: the walk towards the ancestors
of a page stays above the bitmap of order 0, and of the headers it can reach that of page 0 only.
-/

namespace YohdaOS

open ByteMem

/-- `s'` differs from `s` in the bitmaps above order 0, the counters and the first header. -/
structure Above (s s' : Mm) : Prop where
  same : Same s s'
  frame : Frame ((s.bud 0).bmp.base + 4 * (s.bud 0).bmp.size) (s.bm.hdrBase + 1) s.mem s'.mem

theorem Above.refl (s : Mm) : Above s s := ⟨Same.refl s, Frame.refl _ _ _⟩

theorem Above.trans {s₁ s₂ s₃ : Mm} (h₁ : Above s₁ s₂) (h₂ : Above s₂ s₃) : Above s₁ s₃ where
  same := h₁.same.trans h₂.same
  frame := by
    have h := h₂.frame
    rw [h₁.same.bmp, h₁.same.bm] at h
    exact h₁.frame.trans h

theorem Above.bit {s s' : Mm} (h : Above s s') {k : ℕ} (hk : k < s.bits 0) :
    s'.bit 0 k = s.bit 0 k := by
  rw [Mm.bits] at hk
  rw [Mm.bit, Mm.bit, h.same.bmp]
  exact h.frame.bitAt (by omega)

theorem Above.header {s s' : Mm} (h : Above s s') {k : ℕ} (hk : k ≠ 0) :
    s'.header k = s.header k := by
  rw [Mm.header, Mm.header, h.same.bm]
  exact h.frame.load8 (by omega)

section Walk

variable {s : Mm} (L : Layout s) {i n : ℕ} (hpos : 1 ≤ i) (hi : i < s.bm.dep)
  (hn : n ≤ (s.bud i).num) (f : Bool)

include L hpos hi hn

/-- The bit after the last one of an order may be marked, too: it lies in the bitmap above, or it is
the lowest bit of the first header. -/
theorem above_budSetBit : Above s (budSetBit s i n f).2 := by
  rw [budSetBit_eq L hi]
  split_ifs
  · exact Above.refl s
  · refine ⟨same_flip s i n f, ?_⟩
    have hbase := L.base_pos i hi
    have hlo := L.base_lt 0 i hpos hi
    have hhi := L.base_hdr i hi
    have hbits := le_trans hn (L.num_le_bits hi)
    have hmod := Nat.mod_lt n (by decide : 0 < 32)
    rw [Mm.bits] at hbits
    simp only [Mm.flip, bitmapSet_eq (show (s.bud i).bmp.base ≠ 0 by omega) (L.bit i hi)]
    exact (frame_store32_withBit s.mem _ hmod f).mono (by omega) (by omega)

theorem above_budSearch : Above s (budSearch s (u8 i) n f).2 := by
  have h := above_budSetBit L hpos hi hn f
  have hlt := L.bits_lt hi
  have hle := L.num_le_bits hi
  simp only [budSearch, u8_ord L hi, toInt_natCast (show n < 2147483648 by omega),
    apply_ite Prod.snd]
  split
  · exact Above.refl s
  · exact h

theorem above_budMerge : Above s (budMerge s (u8 i) n f).2 := by
  have h := above_budSetBit L hpos hi hn f
  have hlt := L.bits_lt hi
  have hle := L.num_le_bits hi
  simp only [budMerge, u8_ord L hi, toInt_natCast (show n < 2147483648 by omega),
    apply_ite Prod.snd, ite_self]
  exact h

end Walk

/-- The walk from order `i` on, if what it does at an order stays above order 0. -/
theorem above_budChkParentLoop {stop : Mm → ℕ → ℕ → Bool → Bool × Mm}
    (hstop : ∀ {s : Mm}, Layout s → ∀ {i n : ℕ}, 1 ≤ i → i < s.bm.dep → n ≤ (s.bud i).num →
      ∀ f, Above s (stop s (u8 i) n f).2)
    (f : Bool) (fuel i n : ℕ) {s : Mm} (L : Layout s) (hfuel : i + fuel ≤ s.bm.dep) (hpos : 1 ≤ i)
    (hn : i < s.bm.dep → n ≤ (s.bud i).num) : Above s (budChkParentLoop stop f fuel i n s) := by
  induction fuel generalizing i n s with
  | zero => exact Above.refl s
  | succ fuel ih =>
    have hi : i < s.bm.dep := by omega
    have h := hstop L hpos hi (hn hi) f
    simp only [budChkParentLoop]
    split_ifs
    · exact h
    · apply h.trans
      apply ih (i + 1) (n / 2) (h.same.layout L) (by rw [h.same.bm]; omega) (by omega)
      intro hlt
      rw [h.same.bm] at hlt
      rw [h.same.num, L.num_succ hlt]
      exact Nat.div_le_div_right (hn hi)

theorem above_budChkParent {stop : Mm → ℕ → ℕ → Bool → Bool × Mm}
    (hstop : ∀ {s : Mm}, Layout s → ∀ {i n : ℕ}, 1 ≤ i → i < s.bm.dep → n ≤ (s.bud i).num →
      ∀ f, Above s (stop s (u8 i) n f).2)
    (f : Bool) {k : ℕ} {s : Mm} (L : Layout s) (hk : k < (s.bud 0).num) :
    Above s (budChkParent s 0 k f stop).2 := by
  have hdep := L.dep_pos
  rw [budChkParent, if_neg (by omega)]
  apply above_budChkParentLoop hstop f _ _ _ L (by omega) le_rfl
  intro hlt
  rw [L.num_succ hlt]
  exact Nat.div_le_div_right (Nat.le_of_lt hk)

/-- The address of page `k`. -/
def Mm.page (s : Mm) (k : ℕ) : ℕ := s.bm.heapBase + 2048 * k

theorem blockAddr_zero (s : Mm) (k : ℕ) : s.blockAddr ⟨0, k⟩ = s.page k := by
  rw [Mm.blockAddr, Mm.page, pow_zero, Nat.mul_one]

/-- The pages that are out are those of `B`; the first one to go out was page 0. -/
structure Order0 (s : Mm) (B : List ℕ) : Prop where
  layout : Layout s
  bit : ∀ k < s.bits 0, s.bit 0 k = true ↔ padStart (s.bud 0).num ≤ k ∨ k ∈ B
  real : ∀ k ∈ B, k < padStart (s.bud 0).num
  nodup : B.Nodup
  header : ∀ k ∈ B, k ≠ 0 → s.header k = 0
  first : B = [] ∨ 0 ∈ B

namespace Order0

variable {s s' s₁ : Mm} {B : List ℕ} {k t : ℕ}

theorem lt_num (h : Order0 s B) (hk : k ∈ B) : k < (s.bud 0).num :=
  lt_of_lt_of_le (h.real k hk) (padStart_le _)

theorem page_pos (h : Order0 s B) (k : ℕ) : 0 < s.page k := by
  rw [← blockAddr_zero]
  exact BudInv.addr_pos h.layout _

theorem page_end (h : Order0 s B) (hk : k ∈ B) :
    s.page k + 2048 ≤ s.bm.heapBase + s.bm.heapSize := by
  have hend := h.layout.block_end h.layout.dep_pos (h.lt_num hk)
  rw [pow_zero, Nat.mul_one] at hend
  unfold Mm.page
  omega

/-- The walk towards the ancestors keeps what order 0 says. -/
theorem of_above (h : Order0 s B) (ha : Above s s') : Order0 s' B where
  layout := ha.same.layout h.layout
  bit k hk := by
    rw [ha.same.bits] at hk
    rw [ha.bit hk, ha.same.num]
    exact h.bit k hk
  real k hk := by
    rw [ha.same.num]
    exact h.real k hk
  nodup := h.nodup
  header k hk hk0 := by
    rw [ha.header hk0]
    exact h.header k hk hk0
  first := h.first

/-- Writes past the headers do not matter. -/
theorem of_frame (h : Order0 s B) {m : Mem} {lo hi : ℕ} (hlo : s.bm.heapBase ≤ lo)
    (hf : Frame lo hi s.mem m) : Order0 { s with mem := m } B where
  layout := (same_withMem s m).layout h.layout
  bit k hk := by
    have hle := h.layout.hdr_le
    rw [bit_of_frame h.layout (same_withMem s m).toSameBud (hf.mono (by omega) le_rfl)
      h.layout.dep_pos hk]
    exact h.bit k hk
  real := h.real
  nodup := h.nodup
  header k hk hk0 := by
    have hlt := h.layout.header_lt (b := ⟨0, k⟩) h.layout.dep_pos (h.lt_num hk)
    simp only [pow_zero, Nat.mul_one] at hlt
    have hload : load8 m (s.bm.hdrBase + k) = load8 s.mem (s.bm.hdrBase + k) :=
      hf.load8 (by omega)
    exact hload.trans (h.header k hk hk0)
  first := h.first

/-! ### Allocation -/

/-- `bud_find_free` takes the first page that is not out. -/
theorem budFindFree_spec (h : Order0 s B) (hfree : ∃ k < s.bits 0, s.bit 0 k = false) :
    ∃ t < padStart (s.bud 0).num, t ∉ B ∧ (t = 0 ∨ 0 ∈ B) ∧ t < s.bits 0 ∧
      (budFindFree s (0 : ℕ)).1 = t ∧
      Above (budSetBit s 0 t true).2 (budFindFree s (0 : ℕ)).2 := by
  have L := h.layout
  have hdep := L.dep_pos
  obtain ⟨t, htb, hget, hclear, hbefore⟩ | ⟨-, hall⟩ := L.bitmapGetFree_cases hdep
  swap
  · obtain ⟨k, hk, hkfree⟩ := hfree
    rw [hall k hk] at hkfree
    cases hkfree
  have hnot : ¬ (padStart (s.bud 0).num ≤ t ∨ t ∈ B) := by
    rw [← h.bit t htb, hclear]
    decide
  rw [not_or, not_le] at hnot
  have hsame := same_budSetBit L hdep t true
  have hchilds : (budChkChilds (budSetBit s 0 t true).2 0 t true).2 = (budSetBit s 0 t true).2 := by
    rw [budChkChilds, if_neg (by rw [hsame.bm]; omega)]
    rfl
  refine ⟨t, hnot.1, hnot.2, ?_, htb, ?_⟩
  · rcases Nat.eq_zero_or_pos t with ht | ht
    · exact Or.inl ht
    · have hset := hbefore 0 ht
      rw [h.bit 0 (by omega)] at hset
      exact Or.inr (hset.resolve_left (by omega))
  · rw [budFindFree_eq hget, hchilds]
    refine ⟨rfl, ?_⟩
    apply above_budChkParent above_budSearch true (hsame.layout L)
    rw [hsame.num]
    exact lt_of_lt_of_le hnot.1 (padStart_le _)

/-- The page of a set bit, its header written. -/
theorem cons (h : Order0 s B) (hreal : t < padStart (s.bud 0).num) (ht : t ∉ B) (hfirst : t = 0 ∨ 0 ∈ B)
    (hbits : t < s.bits 0) (ha : Above (budSetBit s 0 t true).2 s₁) :
    Order0 (s₁.setHeader t 0) (t :: B) := by
  have L := h.layout
  have hdep := L.dep_pos
  have hm := marked_budSetBit L hdep hbits true
  have hsame := hm.same.trans ha.same
  have L₁ := hsame.layout L
  have hs := same_setHeader s₁ t 0
  have hf : Frame s₁.bm.hdrBase (s₁.bm.hdrBase + t + 1) s₁.mem (s₁.setHeader t 0).mem :=
    (frame_store8 _ _ _).mono (Nat.le_add_right _ _) le_rfl
  refine ⟨hs.layout L₁, fun k hk => ?_, fun k hk => ?_, h.nodup.cons ht, fun k hk hk0 => ?_,
    Or.inr ?_⟩
  · rw [hs.bits, hsame.bits] at hk
    rw [bit_of_frame L₁ hs.toSameBud hf L₁.dep_pos (by rw [hsame.bits]; exact hk),
      ha.bit (by rw [hm.same.bits]; exact hk), bit_budSetBit L hdep hbits true hdep hk, hs.num,
      hsame.num, List.mem_cons]
    by_cases hkt : k = t
    · simp [hkt]
    · rw [if_neg (by tauto), h.bit k hk]
      tauto
  · rw [hs.num, hsame.num]
    rcases List.mem_cons.1 hk with rfl | hk
    · exact hreal
    · exact h.real k hk
  · rw [header_setHeader]
    split_ifs with hkt
    · rfl
    · rw [ha.header hk0, hm.header]
      exact h.header k ((List.mem_cons.1 hk).resolve_left hkt) hk0
  · rcases hfirst with rfl | h0
    · exact List.mem_cons_self
    · exact List.mem_cons_of_mem t h0

/-- `_bud_alloc` of at most a page takes a page that is not out. -/
theorem alloc (h : Order0 s B) {size : ℤ} (hpos : 1 ≤ size) (hle : size ≤ 2048)
    (hfree : ∃ k < s.bits 0, s.bit 0 k = false) :
    ∃ t, t ∉ B ∧ (t = 0 ∨ 0 ∈ B) ∧ (_budAlloc s size).1 = .addr (s.page t) ∧
      Order0 (_budAlloc s size).2 (t :: B) := by
  have L := h.layout
  obtain ⟨t, hreal, ht, hfirst, hbits, hfind, ha⟩ := h.budFindFree_spec hfree
  refine ⟨t, ht, hfirst, ?_⟩
  have hclass : IsClass s size 0 := ⟨L.dep_pos, by simpa using hle, by simp⟩
  have hsame := (same_budSetBit L L.dep_pos t true).trans ha.same
  have hnum := lt_of_lt_of_le hreal (padStart_le _)
  have hres := _budAlloc_eq L hpos hclass hnum hfind hsame.toSameBud
  rw [blockAddr_zero, pow_zero, Nat.mul_one] at hres
  rw [hres]
  exact ⟨rfl, h.cons hreal ht hfirst hbits ha⟩

/-! ### Release -/

/-- The bit of a page cleared. -/
theorem erase (h : Order0 s B) (hk : k ∈ B) (h0 : k ≠ 0) :
    Order0 (budSetBit s 0 k false).2 (B.erase k) := by
  have L := h.layout
  have hdep := L.dep_pos
  have hbits := lt_of_lt_of_le (h.lt_num hk) (L.num_le_bits hdep)
  have hm := marked_budSetBit L hdep hbits false
  refine ⟨hm.same.layout L, fun l hl => ?_, fun l hl => ?_, h.nodup.erase k, fun l hl hl0 => ?_,
    Or.inr ?_⟩
  · rw [hm.same.bits] at hl
    rw [bit_budSetBit L hdep hbits false hdep hl, hm.same.num, h.nodup.mem_erase_iff]
    by_cases hlk : l = k
    · have hreal := h.real k hk
      simp [hlk, hreal]
    · rw [if_neg (by tauto), h.bit l hl]
      tauto
  · rw [hm.same.num]
    exact h.real l (List.mem_of_mem_erase hl)
  · rw [hm.header]
    exact h.header l (List.mem_of_mem_erase hl) hl0
  · rw [h.nodup.mem_erase_iff]
    exact ⟨Ne.symm h0, h.first.resolve_left (List.ne_nil_of_mem hk)⟩

/-- The order of a page that is out. -/
theorem header_of_mem (h : Order0 s B) (hk : k ∈ B) (h0 : k ≠ 0) :
    load8 s.mem (budDecode s (s.page k)) = 0 := by
  have hdec := (budDecode_spec h.layout (b := ⟨0, k⟩) h.layout.dep_pos (h.lt_num hk)).1
  rw [blockAddr_zero, pow_zero, Nat.mul_one] at hdec
  rw [hdec]
  exact h.header k hk h0

theorem budGetChunk_zero (h : Order0 s B) : budGetChunk s (0 : ℕ) = 2048 := by
  have hchunk := budGetChunk_spec h.layout h.layout.dep_pos
  rwa [pow_zero, Nat.mul_one] at hchunk

/-- `_bud_free` of a page that is out. -/
theorem free (h : Order0 s B) (hk : k ∈ B) (h0 : k ≠ 0) :
    Order0 (_budFree s (s.page k)) (B.erase k) := by
  have L := h.layout
  have hdep := L.dep_pos
  have hnum := h.lt_num hk
  have he := h.erase hk h0
  have hsame := same_budSetBit L hdep k false
  have hchilds : (budChkChilds (budSetBit s 0 k false).2 0 k false).2 =
      (budSetBit s 0 k false).2 := by
    rw [budChkChilds, if_neg (by rw [hsame.bm]; omega)]
    rfl
  have hhdr : s.header (k * 2 ^ 0) = 0 := by
    rw [pow_zero, Nat.mul_one]
    exact h.header k hk h0
  rw [← blockAddr_zero, _budFree_eq (b := ⟨0, k⟩) L hdep hnum hhdr]
  simp only [hchilds]
  split_ifs
  · exact he
  · apply he.of_above
    apply above_budChkParent above_budMerge false (hsame.layout L)
    rw [hsame.num]
    exact hnum

end Order0

/-- After `_bud_init` no page is out. -/
theorem order0_init {H : Heap} {s s' : Mm} (h : InitPost H s s') : Order0 s' [] where
  layout := h.layout
  bit k hk := by
    rw [h.bit 0 h.layout.dep_pos k hk]
    simp
  real := by simp
  nodup := List.nodup_nil
  header := by simp
  first := Or.inl rfl

end YohdaOS
