import YohdaOS.Buddy.Frame
import YohdaOS.Buddy.Run

/-!
# Which blocks a run can reach

Requests of one order fill it block by block, whatever the bits of the larger orders say.  So every
block whose bit is clear is handed out by some run.  Nothing is assumed of the padding here: over
orders with whole words the walk towards the ancestors can leave a bitmap at its end, but what it
writes there lies past all smaller orders.
-/

namespace YohdaOS

open ByteMem BinaryBlocks

/-! ## What larger orders leave alone -/

/-- A bit of order `i`, in or past its bitmap, is no bit of a smaller order. -/
theorem bit_budSetBit_above {s : Mm} (L : Layout s) {i j : ℕ} (hi : i < s.bm.dep) (hji : j < i)
    (n : ℕ) (f : Bool) {l : ℕ} (hl : l < s.bits j) :
    (budSetBit s i n f).2.bit j l = s.bit j l := by
  have hbase := L.base_pos i hi
  have hlt := L.base_lt j i hji hi
  rw [Mm.bits] at hl
  rw [budSetBit_eq L hi]
  split_ifs
  · rfl
  · rw [Mm.bit, bmp_flip]
    apply (frame_bitmapSet (by omega) (L.bit i hi) n f).bitAt
    omega

theorem bit_budSearch_above {s : Mm} (L : Layout s) {i j : ℕ} (hi : i < s.bm.dep) (hji : j < i)
    {n : ℕ} (hn : n < 2147483648) (f : Bool) {l : ℕ} (hl : l < s.bits j) :
    (budSearch s (u8 i) n f).2.bit j l = s.bit j l := by
  simp only [budSearch, u8_ord L hi, toInt_natCast hn, apply_ite Prod.snd]
  split_ifs
  · rfl
  · exact bit_budSetBit_above L hi hji n f hl

theorem bit_budMerge_above {s : Mm} (L : Layout s) {i j : ℕ} (hi : i < s.bm.dep) (hji : j < i)
    {n : ℕ} (hn : n < 2147483648) (f : Bool) {l : ℕ} (hl : l < s.bits j) :
    (budMerge s (u8 i) n f).2.bit j l = s.bit j l := by
  simp only [budMerge, u8_ord L hi, toInt_natCast hn, apply_ite Prod.snd, ite_self]
  exact bit_budSetBit_above L hi hji n f hl

/-- A walk towards the ancestors changes no bit of a smaller order. -/
theorem bit_budChkParent {stop : Mm → ℕ → ℕ → Bool → Bool × Mm}
    (hsame : ∀ s i n f, Same s (stop s i n f).2) {j l : ℕ} {f : Bool}
    (hstop : ∀ {s : Mm}, Layout s → ∀ {i n : ℕ}, i < s.bm.dep → j < i → n < 2147483648 →
      l < s.bits j → (stop s (u8 i) n f).2.bit j l = s.bit j l)
    {s : Mm} (L : Layout s) {o t : ℕ} (ho : o < s.bm.dep) (hj : j ≤ o) (ht : t < 2147483648)
    (hl : l < s.bits j) : (budChkParent s o t f stop).2.bit j l = s.bit j l := by
  have hloop (fuel : ℕ) : ∀ (i n : ℕ) (s : Mm), Layout s → i + fuel = s.bm.dep → j < i →
      n < 2147483648 → l < s.bits j → (budChkParentLoop stop f fuel i n s).bit j l = s.bit j l := by
    induction fuel with
    | zero => exact fun _ _ _ _ _ _ _ _ => rfl
    | succ fuel ih =>
      intro i n s L hfuel hji hn hl
      have hs := hsame s (u8 i) n f
      have hbit := hstop L (show i < s.bm.dep by omega) hji hn hl
      simp only [budChkParentLoop]
      split_ifs
      · exact hbit
      · rw [← hbit]
        apply ih (i + 1) (n / 2) _ (hs.layout L) (by rw [hs.bm]; omega) (by omega) (by omega)
        rw [hs.bits]
        exact hl
  rw [budChkParent, if_neg (by omega)]
  exact hloop _ _ _ s L (by omega) (by omega) (by omega) hl

/-- `bud_find_free` marks no block of its order but the one it finds, and below it no block but
those inside. -/
theorem bit_budFindFree {s : Mm} (L : Layout s) {o t : ℕ} (ho : o < s.bm.dep)
    (ht : t < (s.bud o).num) (hget : bitmapGetFree s.mem (s.bud o).bmp = (t : ℤ)) {j l : ℕ}
    (hj : j ≤ o) (hl : l < s.bits j) :
    (budFindFree s o).2.bit j l = true ↔ s.bit j l = true ∨ Block.Overlap ⟨j, l⟩ ⟨o, t⟩ := by
  obtain ⟨hm, hbit⟩ := markDown_spec true L ho ht
  have hbits := L.bits_lt ho
  have hle := L.num_le_bits ho
  rw [budFindFree_eq hget, bit_budChkParent budSearch_same
    (fun L _ _ hi hji hn hl => bit_budSearch_above L hi hji hn true hl) (hm.same.layout L)
    (by rw [hm.same.bm]; exact ho) hj (by omega) (by rw [hm.same.bits]; exact hl),
    hbit j (by omega) l hl]
  by_cases hov : Block.Overlap ⟨j, l⟩ ⟨o, t⟩
  · rw [if_pos ⟨hj, hov⟩]
    exact iff_of_true rfl (Or.inr hov)
  · rw [if_neg fun h => hov h.2]
    exact (or_iff_left hov).symm

/-- A request of order `o` gets the first clear bit of the order. -/
theorem _budAlloc_first {s : Mm} (L : Layout s) {size : ℤ} (hpos : 1 ≤ size) {o t : ℕ}
    (hclass : IsClass s size o) (ht : t < (s.bud o).num)
    (hget : bitmapGetFree s.mem (s.bud o).bmp = (t : ℤ)) :
    _budAlloc s size =
      (.addr (s.blockAddr ⟨o, t⟩), (budFindFree s o).2.setHeader (t * 2 ^ o) o) :=
  _budAlloc_eq L hpos hclass ht (by rw [budFindFree_eq hget]) (budFindFree_same s o).toSameBud

/-- A header byte of a block is no bit. -/
theorem bit_setHeader {s : Mm} (L : Layout s) (k v : ℕ) {j l : ℕ} (hj : j < s.bm.dep)
    (hl : l < s.bits j) : (s.setHeader k v).bit j l = s.bit j l := by
  have hs := same_setHeader s k v
  have hf : Frame s.bm.hdrBase (s.bm.hdrBase + k + 1) s.mem (s.setHeader k v).mem :=
    (frame_store8 _ _ _).mono (Nat.le_add_right _ _) le_rfl
  exact bit_of_frame L hs.toSameBud hf hj hl

/-! ## Filling an order -/

theorem isClass_chunk {s : Mm} {o : ℕ} (ho : o < s.bm.dep) :
    IsClass s ((2048 * 2 ^ o : ℕ) : ℤ) o := by
  refine ⟨ho, le_rfl, fun k hk => ?_⟩
  have : 2 ^ k < 2 ^ o := Nat.pow_lt_pow_right (by decide) hk
  omega

/-- `bitmap_get_free` finds the bit that is clear when all before it are set. -/
theorem bitmapGetFree_first {s : Mm} (L : Layout s) {o t : ℕ} (ho : o < s.bm.dep)
    (ht : t < s.bits o) (hclear : s.bit o t = false) (hbefore : ∀ l < t, s.bit o l = true) :
    bitmapGetFree s.mem (s.bud o).bmp = (t : ℤ) := by
  obtain ⟨k, -, hget, hk, hkbefore⟩ | ⟨-, hall⟩ := L.bitmapGetFree_cases ho
  · rw [hget]
    rcases Nat.lt_trichotomy k t with hlt | rfl | hgt
    · rw [hbefore k hlt] at hk
      cases hk
    · rfl
    · rw [hkbefore t hgt] at hclear
      cases hclear
  · rw [hall t ht] at hclear
    cases hclear

/-- Requests of order `o` fill it until its clear bit `t` comes first. -/
theorem fill_order {o t : ℕ} (n : ℕ) (r : BudRun) (L : Layout r.s) (ho : o < r.s.bm.dep)
    (ht : t < (r.s.bud o).num) (hclear : r.s.bit o t = false)
    (hbefore : ∀ l, l + n < t → r.s.bit o l = true) :
    ∃ r', Relation.ReflTransGen BudStep r r' ∧ Same r.s r'.s ∧
      bitmapGetFree r'.s.mem (r'.s.bud o).bmp = (t : ℤ) := by
  have htb := lt_of_lt_of_le ht (L.num_le_bits ho)
  induction n generalizing r with
  | zero =>
    exact ⟨r, .refl, Same.refl r.s, bitmapGetFree_first L ho htb hclear hbefore⟩
  | succ n ih =>
    by_cases hskip : ∀ l, l + n < t → r.s.bit o l = true
    · exact ih r L ho ht hclear hskip htb
    push Not at hskip
    obtain ⟨k, hk, hkclear⟩ := hskip
    rw [ne_eq, Bool.not_eq_true] at hkclear
    have hkeq : k + (n + 1) = t := by
      by_contra hne
      rw [hbefore k (by omega)] at hkclear
      cases hkclear
    -- block `k` is the first free one, and the request takes it
    have hkb : k < r.s.bits o := by omega
    have hfirst : ∀ l < k, r.s.bit o l = true := fun l hl => hbefore l (by omega)
    have hget := bitmapGetFree_first L ho hkb hkclear hfirst
    have hknum : k < (r.s.bud o).num := by omega
    have hclass := isClass_chunk ho
    have hone : 1 ≤ ((2048 * 2 ^ o : ℕ) : ℤ) := by
      have : 0 < 2 ^ o := by positivity
      omega
    have hstep := BudStep.alloc r _ hone ⟨o, hclass, k, hkb, hkclear⟩
    have hs := _budAlloc_same r.s ((2048 * 2 ^ o : ℕ) : ℤ)
    have hbit (l : ℕ) (hl : l < r.s.bits o) :
        (_budAlloc r.s ((2048 * 2 ^ o : ℕ) : ℤ)).2.bit o l = true ↔
          r.s.bit o l = true ∨ l = k := by
      have hf := budFindFree_same r.s o
      rw [_budAlloc_first L hone hclass hknum hget]
      simp only
      rw [bit_setHeader (hf.layout L) _ _ (by rw [hf.bm]; exact ho) (by rw [hf.bits]; exact hl),
        bit_budFindFree L ho hknum hget le_rfl hl, Block.overlap_same_ord]
    have hclear' : (_budAlloc r.s ((2048 * 2 ^ o : ℕ) : ℤ)).2.bit o t = false := by
      rw [← Bool.not_eq_true, hbit t htb, hclear]
      simp only [Bool.false_eq_true, false_or]
      omega
    have hbefore' (l : ℕ) (hl : l + n < t) :
        (_budAlloc r.s ((2048 * 2 ^ o : ℕ) : ℤ)).2.bit o l = true := by
      rw [hbit l (by omega)]
      rcases Nat.lt_or_ge (l + (n + 1)) t with hlt | hge
      · exact Or.inl (hbefore l hlt)
      · exact Or.inr (by omega)
    obtain ⟨r', hrun, hsame, hfound⟩ := ih ⟨_, budGrant r.s _ :: r.live⟩ (hs.layout L)
      (by rw [hs.bm]; exact ho) (by rw [hs.num]; exact ht) hclear' hbefore'
      (by rw [hs.bits]; exact htb)
    exact ⟨r', .head hstep hrun, hs.trans hsame, hfound⟩

/-- Some run from `r` gets to a successful request that returns `x`. -/
def Reaches (r : BudRun) (x : ℕ) : Prop :=
  ∃ r', Relation.ReflTransGen BudStep r r' ∧ ∃ size, 1 ≤ size ∧ HasFree r'.s size ∧
    (_budAlloc r'.s size).1.val = x

theorem blockAddr_congr {s s' : Mm} (h : Same s s') (b : Block) :
    s'.blockAddr b = s.blockAddr b := by rw [Mm.blockAddr, Mm.blockAddr, h.bm]

/-- After filling the order up to clear bit `t`, the request for a chunk gets block `t`. -/
theorem request_found {r : BudRun} (L : Layout r.s) {o t : ℕ} (ho : o < r.s.bm.dep)
    (ht : t < (r.s.bud o).num) (hget : bitmapGetFree r.s.mem (r.s.bud o).bmp = (t : ℤ)) :
    1 ≤ ((2048 * 2 ^ o : ℕ) : ℤ) ∧ HasFree r.s ((2048 * 2 ^ o : ℕ) : ℤ) ∧
      _budAlloc r.s ((2048 * 2 ^ o : ℕ) : ℤ) =
        (.addr (r.s.blockAddr ⟨o, t⟩), (budFindFree r.s o).2.setHeader (t * 2 ^ o) o) := by
  have hone : 1 ≤ ((2048 * 2 ^ o : ℕ) : ℤ) := by
    have : 0 < 2 ^ o := by positivity
    omega
  refine ⟨hone, ⟨o, isClass_chunk ho, ?_⟩, _budAlloc_first L hone (isClass_chunk ho) ht hget⟩
  obtain ⟨k, hk, -, hclear, -⟩ | ⟨hneg, -⟩ := L.bitmapGetFree_cases ho
  · exact ⟨k, hk, hclear⟩
  · omega

/-- Every block with a clear bit is reached. -/
theorem reaches_block {r : BudRun} (L : Layout r.s) {o t : ℕ} (ho : o < r.s.bm.dep)
    (ht : t < (r.s.bud o).num) (hclear : r.s.bit o t = false) :
    Reaches r (r.s.blockAddr ⟨o, t⟩) := by
  obtain ⟨r', hrun, hs, hget⟩ := fill_order t r L ho ht hclear fun l hl => by omega
  obtain ⟨hone, hfree, heq⟩ := request_found (hs.layout L) (by rw [hs.bm]; exact ho)
    (by rw [hs.num]; exact ht) hget
  refine ⟨r', hrun, _, hone, hfree, ?_⟩
  rw [heq, Ptr.val_addr, blockAddr_congr hs]

/-- Releasing a block clears the bits of the blocks inside, also those that were never handed out,
so these are reached as well. -/
theorem reaches_inside {r : BudRun} (L : Layout r.s) {o t k : ℕ} (ho : o < r.s.bm.dep)
    (ht : t < (r.s.bud o).num) (hclear : r.s.bit o t = false) (hk : k < (r.s.bud 0).num)
    (hov : Block.Overlap ⟨0, k⟩ ⟨o, t⟩) : Reaches r (r.s.blockAddr ⟨0, k⟩) := by
  obtain ⟨r₁, hrun, hs, hget⟩ := fill_order t r L ho ht hclear fun l hl => by omega
  have L₁ := hs.layout L
  have ho₁ : o < r₁.s.bm.dep := by rw [hs.bm]; exact ho
  have ht₁ : t < (r₁.s.bud o).num := by rw [hs.num]; exact ht
  obtain ⟨hone, hfree, heq⟩ := request_found L₁ ho₁ ht₁ hget
  -- the block is handed out
  have halloc := BudStep.alloc r₁ _ hone hfree
  have hs₂ := hs.trans (_budAlloc_same r₁.s ((2048 * 2 ^ o : ℕ) : ℤ))
  have hgrant : (budGrant r₁.s ((2048 * 2 ^ o : ℕ) : ℤ)).1 =
      (_budAlloc r₁.s ((2048 * 2 ^ o : ℕ) : ℤ)).2.blockAddr ⟨o, t⟩ := by
    rw [budGrant, heq, Ptr.val_addr, ← heq, blockAddr_congr hs₂, blockAddr_congr hs]
  have hheader : (_budAlloc r₁.s ((2048 * 2 ^ o : ℕ) : ℤ)).2.header (t * 2 ^ o) = o := by
    have := L₁.dep_le
    rw [heq]
    simp only
    rw [header_setHeader, if_pos rfl, Nat.mod_eq_of_lt (by omega)]
  set s₂ := (_budAlloc r₁.s ((2048 * 2 ^ o : ℕ) : ℤ)).2
  have L₂ := hs₂.layout L
  have ho₂ : o < s₂.bm.dep := by rw [hs₂.bm]; exact ho
  have ht₂ : t < (s₂.bud o).num := by rw [hs₂.num]; exact ht
  -- and given back
  have hfreed := BudStep.free ⟨s₂, budGrant r₁.s ((2048 * 2 ^ o : ℕ) : ℤ) :: r₁.live⟩ _
    List.mem_cons_self
  simp only [hgrant] at hfreed
  have hs₃ := hs₂.trans (_budFree_same s₂ (s₂.blockAddr ⟨o, t⟩))
  have hkb : k < s₂.bits 0 := by
    have := L.num_le_bits L.dep_pos
    rw [hs₂.bits]
    omega
  have hbit : (_budFree s₂ (s₂.blockAddr ⟨o, t⟩)).bit 0 k = false := by
    obtain ⟨hm, hdown⟩ := markDown_spec false L₂ ho₂ ht₂
    have hcleared := hdown 0 L₂.dep_pos k hkb
    rw [if_pos ⟨Nat.zero_le o, hov⟩] at hcleared
    have htb := L₂.bits_lt ho₂
    have hle := L₂.num_le_bits ho₂
    rw [_budFree_eq L₂ ho₂ ht₂ hheader]
    simp only
    split_ifs
    · exact hcleared
    · rw [bit_budChkParent budMerge_same
        (fun L _ _ hi hji hn hl => bit_budMerge_above L hi hji hn false hl) (hm.same.layout L₂)
        (by rw [hm.same.bm]; exact ho₂) (Nat.zero_le o) (by omega) (by rw [hm.same.bits]; exact hkb)]
      exact hcleared
  obtain ⟨r', hrun', size, hsize, hfree', hx⟩ := reaches_block
    (r := ⟨_budFree s₂ (s₂.blockAddr ⟨o, t⟩),
      (budGrant r₁.s ((2048 * 2 ^ o : ℕ) : ℤ) :: r₁.live).erase
        (budGrant r₁.s ((2048 * 2 ^ o : ℕ) : ℤ))⟩)
    (hs₃.layout L) (by rw [hs₃.bm]; exact L.dep_pos) (by rw [hs₃.num]; exact hk) hbit
  refine ⟨r', (hrun.tail halloc).trans (.head hfreed hrun'), size, hsize, hfree', ?_⟩
  rw [hx, blockAddr_congr hs₃]

end YohdaOS
