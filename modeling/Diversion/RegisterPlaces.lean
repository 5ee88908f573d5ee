import Diversion.Lib.ByteMemory

/-!
# Registers of a saved context

A hook gets the registers of the thread as places in the saved context : an offset into one of
its arrays for most registers, up to three of them for the vector registers
(src/hook/custom/x86_64/register.rs). `Place.read` and `Write.apply` are the two sides of
`Place`. Places of one register share its first bytes, and a write should change these bytes of
each of them and nothing else (`Write.Exact`).

`Zmm<N>::write` stores the upper half of ZMM 0 to 15 into the slot of ZMM 1, so a sequence of
writes is coherent exactly if these writes change no upper half (`coherent_iff`).
-/

namespace Diversion

open ByteMemory

/-- The parts of the three areas behind a `Context` that places point into, each array as its
bytes. -/
structure Context where
  /-- `(*legacy).eflags`. -/
  eflags : BitVec 32
  /-- `(*legacy).regs`, 8 bytes a register. -/
  regs : ℕ → UInt8
  /-- `(*legacy).xsave.legacy.x87_regs`, 16 bytes a register. -/
  x87Regs : ℕ → UInt8
  /-- `(*legacy).xsave.legacy.xmm_regs`. -/
  xmmRegs : ℕ → UInt8
  /-- `(*avx).ymm_h_regs`. -/
  ymmHRegs : ℕ → UInt8
  /-- `(*avx512).kmasks.k_regs`. -/
  kRegs : ℕ → UInt8
  /-- `(*avx512).zmm_0_15h.zmm_h_regs`. -/
  zmmHRegs : ℕ → UInt8
  /-- `(*avx512).zmm_16_31.zmm_regs`. -/
  zmmRegs : ℕ → UInt8

/-- The register places. `width` is the size of the type a general register is accessed as. -/
inductive Place where
  | gpr (width : Fin 9) (n : Fin 16)
  | flag (n : Fin 32)
  | st (n : Fin 8)
  | xmm (n : Fin 16)
  | ymm (n : Fin 16)
  | zmm (n : Fin 32)
  | kmask (n : Fin 8)
deriving DecidableEq, Repr

namespace Place

/-- The number of bytes of a value. That of a flag is a `bool`. -/
def size : Place → ℕ
  | gpr width _ => width
  | flag _ => 1
  | st _ => 10
  | xmm _ => 16
  | ymm _ => 32
  | zmm _ => 64
  | kmask _ => 8

/-- `Flag::MASK`. -/
def mask (n : Fin 32) : BitVec 32 :=
  1#32 <<< n.val

/-- `Place::read`. -/
def read (c : Context) : Place → List UInt8
  | gpr width n => load c.regs (8 * n) width
  | flag n => [if c.eflags &&& mask n ≠ 0 then 1 else 0]
  | st n => load c.x87Regs (16 * n) 10
  | xmm n => load c.xmmRegs (16 * n) 16
  | ymm n => load c.xmmRegs (16 * n) 16 ++ load c.ymmHRegs (16 * n) 16
  | zmm n =>
    if 16 ≤ n.val then load c.zmmRegs (64 * (n - 16)) 64
    else load c.xmmRegs (16 * n) 16 ++ load c.ymmHRegs (16 * n) 16 ++ load c.zmmHRegs (32 * n) 32
  | kmask n => load c.kRegs (8 * n) 8

/-- `Place::write`. -/
def write (c : Context) (value : List UInt8) : Place → Context
  | gpr _ n => { c with regs := store c.regs (8 * n) value }
  | flag n =>
    { c with
      eflags := (c.eflags &&& ~~~mask n) ||| BitVec.ofNat 32 (value.headD 0).toNat <<< n.val }
  | st n => { c with x87Regs := store c.x87Regs (16 * n) value }
  | xmm n => { c with xmmRegs := store c.xmmRegs (16 * n) value }
  | ymm n =>
    { c with
      xmmRegs := store c.xmmRegs (16 * n) (value.take 16)
      ymmHRegs := store c.ymmHRegs (16 * n) (value.drop 16) }
  | zmm n =>
    if 16 ≤ n.val then { c with zmmRegs := store c.zmmRegs (64 * (n - 16)) value }
    else
      { c with
        xmmRegs := store c.xmmRegs (16 * n) (value.take 16)
        ymmHRegs := store c.ymmHRegs (16 * n) ((value.drop 16).take 16)
        -- the source adds 1 where it reads at `N`
        zmmHRegs := store c.zmmHRegs (32 * 1) (value.drop 32) }
  | kmask n => { c with kRegs := store c.kRegs (8 * n) value }

end Place

/-! ## Registers -/

/-- The registers of the machine. XMM and YMM registers are the first bytes of ZMM registers. -/
inductive Register where
  | gpr (n : Fin 16)
  | flag (n : Fin 32)
  | st (n : Fin 8)
  | zmm (n : Fin 32)
  | kmask (n : Fin 8)
deriving DecidableEq, Repr

/-- The register whose first bytes the place is. -/
def Place.register : Place → Register
  | gpr _ n => .gpr n
  | flag n => .flag n
  | st n => .st n
  | xmm n | ymm n => .zmm (n.castLE (by decide))
  | zmm n => .zmm n
  | kmask n => .kmask n

/-- A value for a place, of the size and the kind its type has. -/
structure Write where
  place : Place
  value : List UInt8
  length_value : value.length = place.size
  isBool : ∀ n, place = .flag n → value = [0] ∨ value = [1]

namespace Write

/-- The context after the write. -/
def apply (w : Write) (c : Context) : Context :=
  w.place.write c w.value

/-- The write changes the bytes that a place shares with it to those of the value, and no other
byte of any place. -/
def Exact (w : Write) (c : Context) : Prop :=
  ∀ place : Place, place.read (w.apply c) =
    if place.register = w.place.register then overwrite (place.read c) w.value else place.read c

/-- A write to one of ZMM 0 to 15, other than ZMM 1, finds its upper half in that register and in
ZMM 1. -/
def FindsUpperHalf (w : Write) (c : Context) : Prop :=
  ∀ n : Fin 32, w.place = .zmm n → n.val < 16 → n ≠ 1 →
    ((Place.zmm n).read c).drop 32 = w.value.drop 32 ∧
      ((Place.zmm 1).read c).drop 32 = w.value.drop 32

end Write

/-- The context after the writes. -/
def applyWrites (writes : List Write) (c : Context) : Context :=
  writes.foldl (fun c w => w.apply c) c

/-- The places have bytes in common. -/
def Place.Overlaps (p q : Place) : Prop :=
  p.register = q.register ∧ 0 < p.size ∧ 0 < q.size

/-- Every write of the sequence is exact, and a place reads as the last value written to it if
no overlapping place was written since. -/
structure Coherent (c : Context) (writes : List Write) : Prop where
  exact : ∀ pre w post, writes = pre ++ w :: post → w.Exact (applyWrites pre c)
  last : ∀ pre w post, writes = pre ++ w :: post →
    (∀ u ∈ post, ¬u.place.Overlaps w.place) →
      w.place.read (applyWrites writes c) = w.value

/-! ## Flags -/

namespace Place

theorem getLsbD_mask (n : Fin 32) (i : ℕ) : (mask n).getLsbD i = decide (i = n.val) := by
  rw [mask, ← BitVec.twoPow_eq, BitVec.getLsbD_twoPow]
  by_cases h : i = n.val
  · simp [h]
  · simp [h, Ne.symm h]

theorem and_mask_ne_zero_iff (x : BitVec 32) (n : Fin 32) :
    x &&& mask n ≠ 0 ↔ x.getLsbD n = true := by
  constructor
  · intro h
    by_contra hbit
    refine h (BitVec.eq_of_getLsbD_eq fun i _ => ?_)
    rw [BitVec.getLsbD_and, getLsbD_mask]
    by_cases hi : i = n.val
    · simpa [hi] using hbit
    · simp [hi]
  · intro hbit h
    have hn : (x &&& mask n).getLsbD n = (0 : BitVec 32).getLsbD n := by rw [h]
    rw [BitVec.getLsbD_and, hbit, getLsbD_mask] at hn
    simp at hn

/-- Writing a flag changes its bit. -/
theorem getLsbD_writeFlag (x : BitVec 32) (n k : Fin 32) {b : UInt8} (hb : b = 0 ∨ b = 1) :
    ((x &&& ~~~mask n) ||| BitVec.ofNat 32 b.toNat <<< n.val).getLsbD k =
      if k = n then decide (b = 1) else x.getLsbD k := by
  have hk := k.isLt
  have hone : (BitVec.ofNat 32 b.toNat <<< n.val).getLsbD k =
      (decide (k = n) && decide (b = 1)) := by
    rcases hb with rfl | rfl
    · simp
    · rw [show BitVec.ofNat 32 (1 : UInt8).toNat <<< n.val = mask n from rfl, getLsbD_mask]
      simp [Fin.ext_iff]
  rw [BitVec.getLsbD_or, hone, BitVec.getLsbD_and, BitVec.getLsbD_not, getLsbD_mask]
  by_cases h : k = n
  · subst h
    simp
  · have : k.val ≠ n.val := fun he => h (Fin.ext he)
    simp [h, this]
@[simp] theorem length_read (c : Context) (place : Place) :
    (place.read c).length = place.size := by
  cases place with
  | zmm n =>
    rw [read]
    split_ifs <;> simp [size]
  | _ => simp [read, size]

end Place

/-! ## Registers in one array -/

namespace Place

variable {c : Context} {value : List UInt8}

theorem read_write_gpr {width : Fin 9} {n : Fin 16} (hlen : value.length ≤ 8) (q : Place) :
    q.read ((gpr width n).write c value) =
      if q.register = .gpr n then overwrite (q.read c) value else q.read c := by
  cases q with
  | gpr width' k =>
    have hk : (gpr width' k).register = .gpr n ↔ k.val = n.val := by
      simp [register, Fin.ext_iff]
    simp only [hk]
    exact load_store_element (Nat.le_of_lt_succ width'.isLt) hlen
  | _ =>
    rw [if_neg (by simp [register])]
    rfl

theorem read_write_flag {n : Fin 32} (hvalue : value = [0] ∨ value = [1]) (q : Place) :
    q.read ((flag n).write c value) =
      if q.register = .flag n then overwrite (q.read c) value else q.read c := by
  obtain ⟨b, rfl, hb⟩ : ∃ b : UInt8, value = [b] ∧ (b = 0 ∨ b = 1) := by
    rcases hvalue with rfl | rfl
    · exact ⟨0, rfl, Or.inl rfl⟩
    · exact ⟨1, rfl, Or.inr rfl⟩
  cases q with
  | flag k =>
    have hk : (flag k).register = .flag n ↔ k = n := by
      simp [register]
    simp only [read, write, and_mask_ne_zero_iff, hk, List.headD_cons, getLsbD_writeFlag _ _ _ hb]
    by_cases h : k = n
    · rcases hb with rfl | rfl <;> simp [h, overwrite]
    · simp [h]
  | _ =>
    rw [if_neg (by simp [register])]
    rfl

theorem read_write_st {n : Fin 8} (hlen : value.length = 10) (q : Place) :
    q.read ((st n).write c value) =
      if q.register = .st n then overwrite (q.read c) value else q.read c := by
  cases q with
  | st k =>
    have hk : (st k).register = .st n ↔ k.val = n.val := by
      simp [register, Fin.ext_iff]
    simp only [hk]
    exact load_store_element (by decide) (by omega)
  | _ =>
    rw [if_neg (by simp [register])]
    rfl

theorem read_write_kmask {n : Fin 8} (hlen : value.length = 8) (q : Place) :
    q.read ((kmask n).write c value) =
      if q.register = .kmask n then overwrite (q.read c) value else q.read c := by
  cases q with
  | kmask k =>
    have hk : (kmask k).register = .kmask n ↔ k.val = n.val := by
      simp [register, Fin.ext_iff]
    simp only [hk]
    exact load_store_element le_rfl hlen.le
  | _ =>
    rw [if_neg (by simp [register])]
    rfl

/-- ZMM 16 to 31 have an array of their own. -/
theorem read_write_zmm {n : Fin 32} (hn : 16 ≤ n.val) (hlen : value.length = 64) (q : Place) :
    q.read ((zmm n).write c value) =
      if q.register = .zmm n then overwrite (q.read c) value else q.read c := by
  rw [write, if_pos hn]
  cases q with
  | zmm k =>
    have hk : (zmm k).register = .zmm n ↔ k.val = n.val := by
      simp [register, Fin.ext_iff]
    simp only [hk, read]
    by_cases hk16 : 16 ≤ k.val
    · have hsub : k.val - 16 = n.val - 16 ↔ k.val = n.val := by omega
      rw [if_pos hk16, if_pos hk16, load_store_element le_rfl hlen.le]
      simp only [hsub]
    · rw [if_neg hk16, if_neg hk16, if_neg (by omega)]
  | xmm k | ymm k =>
    have hk : k.castLE (by decide) ≠ n := by
      rintro rfl
      exact absurd k.isLt (Nat.not_lt.2 hn)
    rw [if_neg (by simpa [register] using hk)]
    rfl
  | _ =>
    rw [if_neg (by simp [register])]
    rfl

end Place

/-! ## Vector registers -/

namespace Context

variable (c : Context)

/-- The three parts of a vector register below 16. -/
def low (n : ℕ) : List UInt8 :=
  load c.xmmRegs (16 * n) 16

/-- The upper half of a YMM register. -/
def high (n : ℕ) : List UInt8 :=
  load c.ymmHRegs (16 * n) 16

/-- The upper half of a ZMM register. -/
def upper (n : ℕ) : List UInt8 :=
  load c.zmmHRegs (32 * n) 32

end Context

namespace Place

variable {c c' : Context}

theorem read_ymm (n : Fin 16) : (ymm n).read c = c.low n ++ c.high n :=
  rfl

theorem read_zmm_of_lt {n : Fin 32} (h : n.val < 16) :
    (zmm n).read c = c.low n ++ c.high n ++ c.upper n := by
  rw [read, if_neg (by omega)]
  rfl

theorem drop_read_zmm {n : Fin 32} (h : n.val < 16) : ((zmm n).read c).drop 32 = c.upper n := by
  rw [read_zmm_of_lt h, List.drop_left' (by simp [Context.low, Context.high])]

/-- A write to the vector register `m`, below 16, part by part. -/
structure WritesVector (c c' : Context) (m : ℕ) (value : List UInt8) : Prop where
  low : ∀ n, c'.low n = if n = m then overwrite (c.low n) value else c.low n
  high : ∀ n, c'.high n = if n = m then overwrite (c.high n) (value.drop 16) else c.high n
  upper : ∀ n, c'.upper n = if n = m then overwrite (c.upper n) (value.drop 32) else c.upper n
  eflags : c'.eflags = c.eflags
  regs : c'.regs = c.regs
  x87Regs : c'.x87Regs = c.x87Regs
  kRegs : c'.kRegs = c.kRegs
  zmmRegs : c'.zmmRegs = c.zmmRegs

/-- Part by part is all of each place of the register. -/
theorem WritesVector.read {m : Fin 32} {value : List UInt8} (hm : m.val < 16)
    (h : WritesVector c c' m value) (place : Place) :
    place.read c' =
      if place.register = .zmm m then overwrite (place.read c) value else place.read c := by
  have hlow : ∀ n, (c.low n).length = 16 := fun n => length_load
  have hhigh : ∀ n, (c.high n).length = 16 := fun n => length_load
  cases place with
  | gpr width n => simp [Place.read, register, h.regs]
  | flag n => simp [Place.read, register, h.eflags]
  | st n => simp [Place.read, register, h.x87Regs]
  | kmask n => simp [Place.read, register, h.kRegs]
  | xmm n =>
    have hn : (xmm n).register = .zmm m ↔ n.val = m.val := by
      simp [register, Fin.ext_iff]
    rw [show (xmm n).read c' = c'.low n from rfl, show (xmm n).read c = c.low n from rfl, h.low]
    simp only [hn]
  | ymm n =>
    have hn : (ymm n).register = .zmm m ↔ n.val = m.val := by
      simp [register, Fin.ext_iff]
    rw [read_ymm, read_ymm, h.low, h.high, overwrite_append, hlow]
    simp only [hn]
    split_ifs <;> rfl
  | zmm n =>
    have hn : (zmm n).register = .zmm m ↔ n.val = m.val := by
      simp [register, Fin.ext_iff]
    by_cases hlt : n.val < 16
    · rw [read_zmm_of_lt hlt, read_zmm_of_lt hlt, h.low, h.high, h.upper, overwrite_append,
        overwrite_append, hlow, List.length_append, hlow, hhigh]
      simp only [hn]
      split_ifs <;> rfl
    · have hne : ¬n.val = m.val := by omega
      simp [Place.read, hn, hne, Nat.not_lt.1 hlt, h.zmmRegs]

theorem writesVector_xmm (n : Fin 16) {value : List UInt8} (hlen : value.length = 16) :
    WritesVector c ((xmm n).write c value) n value where
  low _ := load_store_element le_rfl hlen.le
  high k := by
    rw [List.drop_eq_nil_of_le hlen.le, overwrite_nil, ite_self]
    rfl
  upper k := by
    rw [List.drop_eq_nil_of_le (by omega), overwrite_nil, ite_self]
    rfl
  eflags := rfl
  regs := rfl
  x87Regs := rfl
  kRegs := rfl
  zmmRegs := rfl

theorem writesVector_ymm (n : Fin 16) {value : List UInt8} (hlen : value.length = 32) :
    WritesVector c ((ymm n).write c value) n value where
  low k := by
    rw [← overwrite_take, show (c.low k).length = 16 from length_load]
    exact load_store_element le_rfl (List.length_take_le _ _)
  high _ := load_store_element le_rfl (by rw [List.length_drop]; omega)
  upper k := by
    rw [List.drop_eq_nil_of_le hlen.le, overwrite_nil, ite_self]
    rfl
  eflags := rfl
  regs := rfl
  x87Regs := rfl
  kRegs := rfl
  zmmRegs := rfl

/-- The upper half goes to ZMM 1. -/
theorem upper_write_zmm {m : Fin 32} (hm : m.val < 16) {value : List UInt8}
    (hlen : value.length = 64) (n : ℕ) :
    ((zmm m).write c value).upper n = if n = 1 then value.drop 32 else c.upper n := by
  have hdrop : (value.drop 32).length = 32 := by
    rw [List.length_drop, hlen]
  rw [write, if_neg (by omega)]
  refine (load_store_element le_rfl hdrop.le).trans ?_
  rw [overwrite_of_length_eq (by rw [hdrop, length_load])]
  rfl

theorem writesVector_zmm {m : Fin 32} (hm : m.val < 16) {value : List UInt8}
    (hlen : value.length = 64)
    (hupper : m ≠ 1 → c.upper m = value.drop 32 ∧ c.upper 1 = value.drop 32) :
    WritesVector c ((zmm m).write c value) m value := by
  have hdrop : (value.drop 32).length = 32 := by
    rw [List.length_drop, hlen]
  refine ⟨fun k => ?_, fun k => ?_, fun k => ?_, ?_, ?_, ?_, ?_, ?_⟩
  · rw [write, if_neg (by omega), ← overwrite_take, show (c.low k).length = 16 from length_load]
    exact load_store_element le_rfl (List.length_take_le _ _)
  · rw [write, if_neg (by omega), ← overwrite_take, show (c.high k).length = 16 from length_load]
    exact load_store_element le_rfl (List.length_take_le _ _)
  · rw [upper_write_zmm hm hlen, overwrite_of_length_eq (by rw [hdrop]; exact length_load.symm)]
    by_cases hone : m = 1
    · rw [hone]
      rfl
    · obtain ⟨hself, hfirst⟩ := hupper hone
      split_ifs with hk hkm hkm
      · rfl
      · rw [hk, hfirst]
      · rw [hkm, hself]
      · rfl
  all_goals
    rw [write, if_neg (by omega)]

end Place

/-! ## Writes -/

namespace Write

variable {w : Write} {c : Context}

/-- A write that finds its upper half changes exactly the bytes of its register. -/
theorem exact_of_findsUpperHalf (h : w.FindsUpperHalf c) : w.Exact c := by
  obtain ⟨place, value, hlen, hbool⟩ := w
  intro q
  cases place with
  | xmm n => exact (Place.writesVector_xmm n hlen).read (m := n.castLE (by decide)) n.isLt q
  | ymm n => exact (Place.writesVector_ymm n hlen).read (m := n.castLE (by decide)) n.isLt q
  | zmm n =>
    by_cases hlt : n.val < 16
    · refine (Place.writesVector_zmm hlt hlen fun hone => ?_).read hlt q
      have hfinds := h n rfl hlt hone
      rwa [Place.drop_read_zmm hlt, Place.drop_read_zmm (by decide)] at hfinds
    · exact Place.read_write_zmm (by omega) hlen q
  | gpr width n => exact Place.read_write_gpr (hlen.le.trans (Nat.le_of_lt_succ width.isLt)) q
  | flag n => exact Place.read_write_flag (hbool n rfl) q
  | st n => exact Place.read_write_st hlen q
  | kmask n => exact Place.read_write_kmask hlen q

/-- A write that does not changes the upper half of ZMM 1, or does not change its own. -/
theorem findsUpperHalf_of_exact (h : w.Exact c) : w.FindsUpperHalf c := by
  intro n hplace hlt hone
  have hlen : w.value.length = 64 := by
    rw [w.length_value, hplace]
    rfl
  have hupper : ∀ k, (w.apply c).upper k = if k = 1 then w.value.drop 32 else c.upper k := by
    rw [apply, hplace]
    exact Place.upper_write_zmm hlt hlen
  have hself := congrArg (List.drop 32) (h (.zmm n))
  have hfirst := congrArg (List.drop 32) (h (.zmm 1))
  have hreg : (Place.zmm 1).register ≠ w.place.register := by
    rw [hplace]
    simpa [Place.register] using hone.symm
  rw [hplace, if_pos rfl, Place.drop_read_zmm hlt, hupper,
    if_neg (by simpa [Fin.ext_iff] using hone),
    overwrite_of_length_eq (by rw [hlen, Place.length_read]; rfl)] at hself
  rw [if_neg hreg, Place.drop_read_zmm (by decide), hupper, if_pos (by decide)] at hfirst
  exact ⟨(Place.drop_read_zmm hlt).trans hself, hfirst.symm⟩

theorem exact_iff : w.Exact c ↔ w.FindsUpperHalf c :=
  ⟨findsUpperHalf_of_exact, exact_of_findsUpperHalf⟩

/-- A write leaves the places that do not overlap as they are. -/
theorem Exact.read_of_not_overlaps (h : w.Exact c) {place : Place}
    (hplace : ¬w.place.Overlaps place) : place.read (w.apply c) = place.read c := by
  rw [h place]
  split_ifs with hreg
  · by_cases hw : w.value = []
    · rw [hw, overwrite_nil]
    · have hwsize : 0 < w.place.size := w.length_value ▸ List.length_pos_iff.2 hw
      have hsize : place.size = 0 := by
        by_contra hpos
        exact hplace ⟨hreg.symm, hwsize, Nat.pos_of_ne_zero hpos⟩
      have hnil : place.read c = [] := List.length_eq_zero_iff.1 (by rw [Place.length_read, hsize])
      rw [hnil, overwrite_of_length_le (Nat.zero_le _)]
      rfl
  · rfl

theorem Exact.read_self (h : w.Exact c) : w.place.read (w.apply c) = w.value := by
  rw [h w.place, if_pos rfl, overwrite_of_length_eq (by rw [w.length_value, Place.length_read])]

end Write

/-! ## Sequences of writes -/

theorem applyWrites_append (pre post : List Write) (c : Context) :
    applyWrites (pre ++ post) c = applyWrites post (applyWrites pre c) :=
  List.foldl_append

/-- Exact writes to other bytes leave a place as it is. -/
theorem read_applyWrites {place : Place} {writes : List Write} : ∀ {c : Context},
    (∀ pre w post, writes = pre ++ w :: post → w.Exact (applyWrites pre c)) →
      (∀ w ∈ writes, ¬w.place.Overlaps place) →
        place.read (applyWrites writes c) = place.read c := by
  induction writes with
  | nil => exact fun _ _ => rfl
  | cons w writes ih =>
    intro c hexact hplace
    have htail : place.read (applyWrites writes (w.apply c)) = place.read (w.apply c) := by
      refine ih (fun pre u post heq => ?_) fun u hu => hplace u (List.mem_cons_of_mem w hu)
      exact hexact (w :: pre) u post (by rw [heq]; rfl)
    have hw : w.Exact c := hexact [] w writes rfl
    exact htail.trans (hw.read_of_not_overlaps (hplace w List.mem_cons_self))

/-- A sequence of writes is coherent exactly if each write to one of ZMM 0 to 15, other than
ZMM 1, finds its upper half in that register and in ZMM 1. -/
theorem coherent_iff (c : Context) (writes : List Write) :
    Coherent c writes ↔ ∀ pre w post, writes = pre ++ w :: post →
      w.FindsUpperHalf (applyWrites pre c) := by
  constructor
  · exact fun h pre w post heq => Write.exact_iff.1 (h.exact pre w post heq)
  · intro h
    have hexact : ∀ pre w post, writes = pre ++ w :: post → w.Exact (applyWrites pre c) :=
      fun pre w post heq => Write.exact_iff.2 (h pre w post heq)
    refine ⟨hexact, fun pre w post heq hpost => ?_⟩
    have hafter : applyWrites writes c = applyWrites post (w.apply (applyWrites pre c)) := by
      rw [heq, applyWrites_append]
      rfl
    rw [hafter, read_applyWrites ?_ hpost, (hexact pre w post heq).read_self]
    intro pre' u post' hu
    have := hexact (pre ++ w :: pre') u post' (by rw [heq, hu, List.append_assoc]; rfl)
    rwa [applyWrites_append] at this

/-- All registers zero. -/
def Context.zeroed : Context where
  eflags := 0
  regs _ := 0
  x87Regs _ := 0
  xmmRegs _ := 0
  ymmHRegs _ := 0
  kRegs _ := 0
  zmmHRegs _ := 0
  zmmRegs _ := 0

/-- ZMM 2 with all bytes 1. -/
def writeZmm2 : Write where
  place := .zmm 2
  value := List.replicate 64 1
  length_value := rfl
  isBool _ h := nomatch h

/-- What is written to ZMM 2 is not read back from it. -/
theorem not_coherent_zmm2 : ¬Coherent Context.zeroed [writeZmm2] := by
  intro h
  have hread : (Place.zmm 2).read (writeZmm2.apply .zeroed) = List.replicate 64 1 :=
    h.last [] writeZmm2 [] rfl (by simp)
  revert hread
  decide

end Diversion
