import YohdaOS.Lib.Memory

/-!
# The table of the gates

`interrupt_register_handler` writes one gate of 8 bytes; `interrupt_init`, `pit_init` and
`keyboard_init` call it.  The index behind the last entry passes its check.
-/

namespace YohdaOS.P32.Isr

open ByteMem

def IDT_MAX_ENTRYS : ℕ := 0x100

def INT_VEC_MAX : ℕ := 0x81

def IDT_KERN_TRAP : BitVec 8 := 0x8F

/-- `sizeof(struct intr_desc_tbl_entry32)` -/
def sizeofEntry : ℕ := 8

/-- A call of `interrupt_register_handler`. -/
structure Registration where
  vector : ℤ
  offset : BitVec 32
  attr : BitVec 8
deriving DecidableEq, Repr

/-- What the processor reads of an entry. -/
structure Gate where
  offset : BitVec 32
  selector : BitVec 16
  attr : BitVec 8
deriving DecidableEq, Repr

/-- `interrupt_register_handler`; `idtTbl` is the address of `idt_tbl`. -/
def interruptRegisterHandler (idtTbl : ℕ) (m : Mem) (r : Registration) : Mem :=
  if r.vector < 0 ∨ r.vector > IDT_MAX_ENTRYS then m
  else
    let entry := idtTbl + sizeofEntry * r.vector.toNat
    let m := store16 m entry r.offset.toNat
    let m := store16 m (entry + 6) (r.offset >>> 16).toNat
    let m := store16 m (entry + 2) 0x08
    store8 m (entry + 5) r.attr.toNat

/-- The calls one after another. -/
def registerAll (idtTbl : ℕ) (m : Mem) (calls : List Registration) : Mem :=
  calls.foldl (interruptRegisterHandler idtTbl) m

def gateAt (m : Mem) (idtTbl v : ℕ) : Gate :=
  let entry := idtTbl + sizeofEntry * v
  ⟨BitVec.ofNat 32 (load16 m entry + 65536 * load16 m (entry + 6)),
    BitVec.ofNat 16 (load16 m (entry + 2)), m.byte (entry + 5)⟩

/-- The gate that a call asks for. -/
def Registration.gate (r : Registration) : Gate := ⟨r.offset, 0x08, r.attr⟩

/-- The gate that the calls ask for at `v`, the one before them where none names `v`. -/
def asked (calls : List Registration) (v : ℕ) (before : Gate) : Gate :=
  match calls.reverse.find? fun r => r.vector = (v : ℤ) with
  | some r => r.gate
  | none => before

theorem asked_concat (calls : List Registration) (r : Registration) (v : ℕ) (before : Gate) :
    asked (calls ++ [r]) v before = if r.vector = (v : ℤ) then r.gate else asked calls v before := by
  rw [asked, List.reverse_concat, List.find?_cons]
  by_cases h : r.vector = (v : ℤ)
  · simp only [h, decide_true, if_true]
  · simp only [h, decide_false, if_false]
    rfl

variable {idtTbl : ℕ} {m m' : Mem} {r : Registration} {v : ℕ}

/-! ## One call -/

theorem register_eq (h₀ : 0 ≤ r.vector) (h : r.vector ≤ 256) :
    interruptRegisterHandler idtTbl m r =
      store8 (store16 (store16 (store16 m (idtTbl + 8 * r.vector.toNat) r.offset.toNat)
        (idtTbl + 8 * r.vector.toNat + 6) (r.offset >>> 16).toNat)
        (idtTbl + 8 * r.vector.toNat + 2) 0x08) (idtTbl + 8 * r.vector.toNat + 5) r.attr.toNat :=
  if_neg (by rw [IDT_MAX_ENTRYS]; omega)

/-- A call writes the entry it names. -/
theorem frame_register (h₀ : 0 ≤ r.vector) (h : r.vector ≤ 256) :
    Frame (idtTbl + 8 * r.vector.toNat) (idtTbl + 8 * r.vector.toNat + 8) m
      (interruptRegisterHandler idtTbl m r) := by
  rw [register_eq h₀ h]
  generalize idtTbl + 8 * r.vector.toNat = entry
  intro x hx
  rw [frame_store8 _ _ _ x (by omega), frame_store16 _ _ _ x (by omega),
    frame_store16 _ _ _ x (by omega), frame_store16 _ _ _ x (by omega)]

theorem gateAt_congr (h : ∀ x, idtTbl + 8 * v ≤ x → x < idtTbl + 8 * v + 8 → m'.byte x = m.byte x) :
    gateAt m' idtTbl v = gateAt m idtTbl v := by
  simp only [gateAt, sizeofEntry]
  rw [load16_congr fun x hx hx' => h x (by omega) (by omega),
    load16_congr fun x hx hx' => h x (by omega) (by omega),
    load16_congr fun x hx hx' => h x (by omega) (by omega), h _ (by omega) (by omega)]

/-- The entry holds what the call asks for. -/
theorem gateAt_register_self (h₀ : 0 ≤ r.vector) (h : r.vector ≤ 256) :
    gateAt (interruptRegisterHandler idtTbl m r) idtTbl r.vector.toNat = r.gate := by
  rw [register_eq h₀ h]
  generalize hentry : idtTbl + 8 * r.vector.toNat = entry
  simp only [gateAt, sizeofEntry, hentry, Registration.gate]
  have hoffset := r.offset.isLt
  have hhigh : (r.offset >>> 16).toNat = r.offset.toNat / 65536 := by
    rw [BitVec.toNat_ushiftRight, Nat.shiftRight_eq_div_pow]
  refine Gate.mk.injEq _ _ _ _ _ _ |>.mpr ⟨?_, ?_, ?_⟩
  · have hframe (m : Mem) : Frame (entry + 5) (entry + 6) m (store8 m (entry + 5) r.attr.toNat) :=
      frame_store8 m (entry + 5) _
    rw [(hframe _).load16 (by omega), (hframe _).load16 (by omega),
      load16_store16_of_disjoint _ _ (by omega), load16_store16_of_disjoint _ _ (by omega),
      load16_store16, load16_store16_of_disjoint _ _ (by omega), load16_store16, hhigh]
    apply BitVec.eq_of_toNat_eq
    rw [BitVec.toNat_ofNat]
    omega
  · rw [(frame_store8 _ (entry + 5) _).load16 (by omega), load16_store16]
    rfl
  · rw [byte_store8_self, BitVec.ofNat_toNat, BitVec.setWidth_eq]

/-- The other entries are left alone. -/
theorem gateAt_register_of_ne (hne : r.vector ≠ (v : ℤ)) :
    gateAt (interruptRegisterHandler idtTbl m r) idtTbl v = gateAt m idtTbl v := by
  by_cases hok : 0 ≤ r.vector ∧ r.vector ≤ 256
  · exact gateAt_congr fun x hx hx' => frame_register hok.1 hok.2 x (by omega)
  · rw [interruptRegisterHandler, if_pos (by rw [IDT_MAX_ENTRYS]; omega)]

/-! ## All calls -/

theorem registerAll_concat (calls : List Registration) :
    registerAll idtTbl m (calls ++ [r]) =
      interruptRegisterHandler idtTbl (registerAll idtTbl m calls) r := List.foldl_concat ..

theorem gateAt_registerAll (idtTbl : ℕ) (m : Mem) (calls : List Registration) (hv : v ≤ 256) :
    gateAt (registerAll idtTbl m calls) idtTbl v = asked calls v (gateAt m idtTbl v) := by
  induction calls using List.reverseRecOn with
  | nil => rfl
  | append_singleton calls r ih =>
    rw [registerAll_concat, asked_concat]
    split_ifs with hr
    · have hself : gateAt (interruptRegisterHandler idtTbl (registerAll idtTbl m calls) r) idtTbl
          r.vector.toNat = r.gate := gateAt_register_self (by omega) (by omega)
      rwa [hr, Int.toNat_natCast] at hself
    · rw [gateAt_register_of_ne hr, ih]

theorem frame_registerAll {calls : List Registration} (h : ∀ r ∈ calls, r.vector ≠ 256) :
    Frame idtTbl (idtTbl + 2048) m (registerAll idtTbl m calls) := by
  induction calls using List.reverseRecOn with
  | nil => exact Frame.refl _ _ m
  | append_singleton calls r ih =>
    have hr := h r (by simp)
    rw [registerAll_concat]
    refine (ih fun r hr => h r (List.mem_append_left _ hr)).trans ?_
    by_cases hok : 0 ≤ r.vector ∧ r.vector ≤ 256
    · exact (frame_register hok.1 hok.2).mono (by omega) (by omega)
    · rw [interruptRegisterHandler, if_pos (by rw [IDT_MAX_ENTRYS]; omega)]
      exact Frame.refl _ _ _

/-- A gate behind the table that the calls ask for is written there. -/
theorem asked_of_mem {calls : List Registration} (h : ∃ r ∈ calls, r.vector = (v : ℤ)) :
    ∃ r ∈ calls, ∀ before, asked calls v before = r.gate := by
  obtain ⟨r, hr, hv⟩ := h
  have hsome : (calls.reverse.find? fun r => r.vector = (v : ℤ)).isSome := by
    rw [List.find?_isSome]
    exact ⟨r, List.mem_reverse.2 hr, by simpa using hv⟩
  obtain ⟨r', hr'⟩ := Option.isSome_iff_exists.1 hsome
  refine ⟨r', List.mem_reverse.1 (List.mem_of_find?_eq_some hr'), fun before => ?_⟩
  rw [asked, hr']

/-- Whatever calls are made, in whatever order: each entry of the table holds what the last call for
it asks for, and they write outside the table exactly when one of them names vector 256. -/
theorem registerAll_table (idtTbl : ℕ) (calls : List Registration) :
    (∀ m, ∀ v < IDT_MAX_ENTRYS,
      gateAt (registerAll idtTbl m calls) idtTbl v = asked calls v (gateAt m idtTbl v)) ∧
    ((∀ m, Frame idtTbl (idtTbl + sizeofEntry * IDT_MAX_ENTRYS) m (registerAll idtTbl m calls)) ↔
      ∀ r ∈ calls, r.vector ≠ 256) := by
  refine ⟨fun m v hv => gateAt_registerAll idtTbl m calls hv.le, fun hframe r hr hvector => ?_,
    fun h m => frame_registerAll h⟩
  obtain ⟨last, -, hlast⟩ := asked_of_mem (v := 256) ⟨r, hr, hvector⟩
  -- a memory that holds another attribute there
  let m : Mem := ⟨fun _ => last.attr + 1⟩
  have hsame := hframe m (idtTbl + 8 * 256 + 5) (Or.inr (by rw [sizeofEntry, IDT_MAX_ENTRYS]; omega))
  have hgate := gateAt_registerAll idtTbl m calls (v := 256) le_rfl
  rw [hlast] at hgate
  have hattr : (registerAll idtTbl m calls).byte (idtTbl + 8 * 256 + 5) = last.attr :=
    congrArg Gate.attr hgate
  rw [hattr] at hsame
  have hnat : last.attr.toNat = (last.attr + 1).toNat := congrArg BitVec.toNat hsame
  rw [BitVec.toNat_add] at hnat
  have hlt := last.attr.isLt
  have hone : (1 : BitVec 8).toNat = 1 := rfl
  omega

end YohdaOS.P32.Isr
