import Diversion.AllocNear
import Diversion.Install

/-!
# The short jump

`JmpRel::short_encoding_range` is where a jump can lead that keeps the bytes of the code from
some length on. Fixing the high bytes of a displacement leaves an interval of displacements,
as the little-endian value of bytes is that of the low ones plus a multiple of that of the
high ones (`leValue_append`), and the sign is that of the highest byte
(`signed32_mem_iff`). So the range has exactly the targets whose encoding has the bytes of
the code there (`shortEncodingRange_exact`).
-/

namespace Diversion

open BoundedRangeAllocator

/-! ## Little-endian bytes -/

section LeValue

variable {l l' : List UInt8} {n : ℕ}

/-- The value of little-endian bytes. -/
def leValue (bytes : List UInt8) : ℕ :=
  bytes.foldr (fun byte n => byte.toNat + 256 * n) 0

/-- A `u32` as an `i32`. -/
def signed32 (n : ℕ) : ℤ :=
  if n < 2 ^ 31 then n else (n : ℤ) - 2 ^ 32

theorem i32FromLeBytes_eq (bytes : List UInt8) : i32FromLeBytes bytes = signed32 (leValue bytes) :=
  rfl

@[simp] theorem leValue_nil : leValue [] = 0 :=
  rfl

@[simp] theorem leValue_cons (byte : UInt8) :
    leValue (byte :: l) = byte.toNat + 256 * leValue l :=
  rfl

theorem leValue_append : leValue (l ++ l') = leValue l + 256 ^ l.length * leValue l' := by
  induction l with
  | nil => simp
  | cons byte l ih =>
    rw [List.cons_append, leValue_cons, leValue_cons, ih, List.length_cons, Nat.mul_add,
      ← Nat.mul_assoc, Nat.pow_succ', Nat.add_assoc]

theorem leValue_lt : leValue l < 256 ^ l.length := by
  induction l with
  | nil => simp
  | cons byte l ih =>
    have := byte.toNat_lt
    rw [leValue_cons, List.length_cons, Nat.pow_succ']
    omega

theorem leValue_inj (hlen : l.length = l'.length) : leValue l = leValue l' ↔ l = l' := by
  refine ⟨fun h => ?_, congrArg leValue⟩
  induction l generalizing l' with
  | nil => exact (List.length_eq_zero_iff.1 hlen.symm).symm
  | cons byte l ih =>
    cases l' with
    | nil => cases hlen
    | cons byte' l' =>
      have := byte.toNat_lt
      have := byte'.toNat_lt
      rw [leValue_cons, leValue_cons] at h
      have hbyte : byte = byte' := UInt8.toNat_inj.1 (by omega)
      rw [hbyte, ih (by simpa using hlen) (by omega)]

theorem leValue_drop {k : ℕ} (hk : k ≤ l.length) : leValue (l.drop k) = leValue l / 256 ^ k := by
  have hlen : (l.take k).length = k := List.length_take_of_le hk
  have hlt := leValue_lt (l := l.take k)
  have happ : leValue (l.take k ++ l.drop k) = _ := leValue_append
  rw [List.take_append_drop, hlen] at happ
  rw [hlen] at hlt
  rw [happ, Nat.add_mul_div_left _ _ (Nat.pow_pos (by decide)), Nat.div_eq_of_lt hlt, Nat.zero_add]

/-- The value of four bytes written and read. -/
theorem leValue_i32ToLeBytes (d : ℤ) : leValue (i32ToLeBytes d) = (d % 2 ^ 32).toNat := by
  have hlt : (d % 2 ^ 32).toNat < 2 ^ 32 := by omega
  generalize hn : (d % 2 ^ 32).toNat = n at hlt
  simp only [i32ToLeBytes, hn, List.range, List.range.loop, List.map, leValue_cons, leValue_nil,
    UInt8.toNat_ofNat']
  omega

@[simp] theorem length_i32ToLeBytes (d : ℤ) : (i32ToLeBytes d).length = 4 := by
  simp [i32ToLeBytes]

/-- The displacements with the same high bytes form an interval. -/
theorem signed32_mem_iff {k high : ℕ} {d : ℤ} (hk : k ≤ 3) (hhigh : high < 256 ^ (4 - k)) :
    (signed32 (256 ^ k * high) ≤ d ∧ d ≤ signed32 (256 ^ k - 1 + 256 ^ k * high)) ↔
      (i32Min ≤ d ∧ d ≤ i32Max) ∧ (d % 2 ^ 32).toNat / 256 ^ k = high := by
  unfold signed32 i32Min i32Max
  obtain rfl | rfl | rfl | rfl : k = 0 ∨ k = 1 ∨ k = 2 ∨ k = 3 := by omega
  all_goals
    simp only [Nat.reducePow, Nat.reduceSub] at hhigh ⊢
    split_ifs <;> omega

end LeValue

/-! ## The range -/

namespace JmpRel

section Range

variable {bytes : Vector UInt8 disasmLen} {len : ℕ}

/-- The bytes of the code that a jump of `len` bytes does not replace. -/
def codeHigh (bytes : Vector UInt8 disasmLen) (len : ℕ) : List UInt8 :=
  (bytes.toList.drop len).take (jmpRelLen - len)

/-- The jump has the bytes of the code from `len` on. -/
def Keeps (jmpRel : JmpRel) (bytes : Vector UInt8 disasmLen) (len : ℕ) : Prop :=
  ∀ i, len ≤ i → i < jmpRelLen → jmpRel.asBytes[i]? = bytes.toList[i]?

theorem length_bytes (bytes : Vector UInt8 disasmLen) : bytes.toList.length = 19 :=
  bytes.length_toList

theorem length_codeHigh (h : len ≤ jmpRelLen) : (codeHigh bytes len).length = jmpRelLen - len := by
  have hbytes := length_bytes bytes
  rw [codeHigh, List.length_take, List.length_drop, hbytes]
  unfold jmpRelLen at *
  omega

/-- The loop that sets a run of bytes. -/
theorem getElem?_foldl_set (f : ℕ → UInt8) (l : List UInt8) (start n j : ℕ) (hstart : 0 < start) :
    ((List.range' start n).foldl (fun l i => l.set (i - 1) (f i)) l)[j]? =
      if start ≤ j + 1 ∧ j + 1 < start + n then l[j]?.map fun _ => f (j + 1) else l[j]? := by
  induction n with
  | zero => rw [if_neg (by omega)]; rfl
  | succ n ih =>
    rw [List.range'_1_concat, List.foldl_append, List.foldl_cons, List.foldl_nil]
    by_cases hj : start + n - 1 = j
    · subst hj
      rw [List.getElem?_set_self', ih, if_neg (by omega), if_pos (by omega),
        Nat.sub_add_cancel (by omega)]
      rfl
    · rw [List.getElem?_set_ne hj, ih]
      exact if_congr (by omega) rfl rfl

/-- The extreme displacements are the code's high bytes behind the low bytes of `start`. -/
theorem shortDisp_eq {start : List UInt8} (hlen : 0 < len) (hlen' : len ≤ jmpRelLen)
    (hstart : start.length = 4) : shortDisp bytes len start =
      signed32 (leValue (start.take (len - 1)) + 256 ^ (len - 1) * leValue (codeHigh bytes len)) := by
  have htake : (start.take (len - 1)).length = len - 1 := by
    rw [List.length_take, hstart]
    unfold jmpRelLen at hlen'
    omega
  have hbytes := length_bytes bytes
  rw [shortDisp, i32FromLeBytes_eq]
  nth_rewrite 2 [← htake]
  rw [← leValue_append]
  congr 2
  refine List.ext_getElem? fun j => ?_
  rw [getElem?_foldl_set _ _ _ _ _ hlen]
  unfold codeHigh
  unfold jmpRelLen at *
  rcases Nat.lt_or_ge j (len - 1) with hj | hj
  · rw [if_neg (by omega), List.getElem?_append_left (by omega), List.getElem?_take, if_pos hj]
  · rw [List.getElem?_append_right (by omega), htake, List.getElem?_take,
      List.getElem?_drop, show len + (j - (len - 1)) = j + 1 by omega]
    rcases Nat.lt_or_ge j 4 with hj' | hj'
    · have hlt : j + 1 < bytes.toList.length := by omega
      rw [if_pos (by omega), if_pos (by omega), List.getElem?_eq_getElem (by omega),
        List.getElem?_eq_getElem hlt, Option.map_some, List.getD_eq_getElem?_getD,
        List.getElem?_eq_getElem hlt, Option.getD_some]
    · rw [if_neg (by omega), if_neg (by omega), List.getElem?_eq_none (by omega)]

theorem keeps_iff (jmpRel : JmpRel) (hlen : 0 < len) (hlen' : len ≤ jmpRelLen) :
    jmpRel.Keeps bytes len ↔
      (jmpRel.disp % 2 ^ 32).toNat / 256 ^ (len - 1) = leValue (codeHigh bytes len) := by
  have hdisp := length_i32ToLeBytes jmpRel.disp
  have hbytes := length_bytes bytes
  have hdrop : len - 1 ≤ (i32ToLeBytes jmpRel.disp).length := by
    unfold jmpRelLen at hlen'
    omega
  rw [← leValue_i32ToLeBytes, ← leValue_drop hdrop, leValue_inj (by
    rw [length_codeHigh hlen', List.length_drop]; unfold jmpRelLen at *; omega)]
  unfold Keeps asBytes codeHigh
  unfold jmpRelLen at *
  constructor
  · intro h
    refine List.ext_getElem? fun j => ?_
    rw [List.getElem?_drop, List.getElem?_take, List.getElem?_drop]
    split_ifs with hj
    · have := h (len + j) (by omega) (by omega)
      rw [show len + j = len - 1 + j + 1 by omega, List.getElem?_cons_succ] at this
      rw [this, show len + j = len - 1 + j + 1 by omega]
    · exact List.getElem?_eq_none (by omega)
  · intro h i hi hi'
    have := congrArg (·[i - len]?) h
    simp only [List.getElem?_drop, List.getElem?_take, if_pos (show i - len < 5 - len by omega)]
      at this
    rwa [show i = i - 1 + 1 by omega, List.getElem?_cons_succ,
      show i - 1 = len - 1 + (i - len) by omega,
      show len - 1 + (i - len) + 1 = len + (i - len) by omega]

theorem leValue_take_zeros {k : ℕ} (hk : k ≤ 3) :
    leValue ([0x00, 0x00, 0x00, 0x80].take k) = 0 := by
  obtain rfl | rfl | rfl | rfl : k = 0 ∨ k = 1 ∨ k = 2 ∨ k = 3 := by omega
  all_goals rfl

theorem leValue_take_ones {k : ℕ} (hk : k ≤ 3) :
    leValue ([0xff, 0xff, 0xff, 0x7f].take k) = 256 ^ k - 1 := by
  obtain rfl | rfl | rfl | rfl : k = 0 ∨ k = 1 ∨ k = 2 ∨ k = 3 := by omega
  all_goals rfl

/-- Between the extreme displacements are those that keep the code's high bytes. -/
theorem shortDisp_mem_iff (bytes : Vector UInt8 disasmLen) (hlen : 0 < len) (d : ℤ) :
    (shortDisp bytes len [0x00, 0x00, 0x00, 0x80] ≤ d ∧
        d ≤ shortDisp bytes len [0xff, 0xff, 0xff, 0x7f]) ↔
      (i32Min ≤ d ∧ d ≤ i32Max) ∧ (⟨d⟩ : JmpRel).Keeps bytes len := by
  rcases Nat.lt_or_ge len jmpRelLen with hlt | hge
  · have hk : len - 1 ≤ 3 := by
      unfold jmpRelLen at hlt
      omega
    have hhigh := leValue_lt (l := codeHigh bytes len)
    rw [length_codeHigh hlt.le, show jmpRelLen - len = 4 - (len - 1) by unfold jmpRelLen; omega]
      at hhigh
    rw [shortDisp_eq hlen hlt.le rfl, shortDisp_eq hlen hlt.le rfl, leValue_take_zeros hk,
      leValue_take_ones hk, Nat.zero_add, keeps_iff _ hlen hlt.le]
    exact signed32_mem_iff hk hhigh
  · -- no byte of the code is kept
    have hkeeps : (⟨d⟩ : JmpRel).Keeps bytes len := fun i hi hi' => absurd hi' (by omega)
    have hrange : List.range' len (jmpRelLen - len) = [] := by
      rw [Nat.sub_eq_zero_of_le hge, List.range'_zero]
    simp only [shortDisp, hrange, List.foldl_nil, hkeeps, and_true]
    rfl

end Range

/-! ## Encoding -/

theorem encode_eq_some_iff {target t : ℕ} (htarget : target ≤ isizeMax) (ht : t ≤ isizeMax)
    {jmpRel : JmpRel} : encode target t = some jmpRel ↔
      jmpRel.disp = (t : ℤ) - target - jmpRelLen ∧ i32Min ≤ jmpRel.disp ∧ jmpRel.disp ≤ i32Max := by
  obtain ⟨disp⟩ := jmpRel
  unfold isizeMax at htarget ht
  have hip : wrappingAdd target jmpRelLen = target + jmpRelLen := by
    refine wrappingAdd_eq ?_
    unfold wordSize jmpRelLen
    omega
  -- the distance of two such addresses wraps only if it is far from an `i32`
  have hwrap : i32Min ≤ wrapIsize (wrapIsize t - wrapIsize (target + jmpRelLen : ℕ)) ∧
        wrapIsize (wrapIsize t - wrapIsize (target + jmpRelLen : ℕ)) ≤ i32Max ↔
      i32Min ≤ (t : ℤ) - target - jmpRelLen ∧ (t : ℤ) - target - jmpRelLen ≤ i32Max := by
    unfold wrapIsize i32Min i32Max jmpRelLen
    omega
  have hexact : i32Min ≤ (t : ℤ) - target - jmpRelLen ∧ (t : ℤ) - target - jmpRelLen ≤ i32Max →
      wrapIsize (wrapIsize t - wrapIsize (target + jmpRelLen : ℕ)) =
        (t : ℤ) - target - jmpRelLen := by
    unfold wrapIsize i32Min i32Max jmpRelLen
    omega
  simp only [encode, disp32Between, hip, hwrap]
  split_ifs with hfits
  · rw [hexact hfits]
    simp only [Option.map_some, Option.some.injEq, mk.injEq]
    constructor
    · rintro rfl
      exact ⟨rfl, hfits⟩
    · exact fun h => h.1.symm
  · simp only [Option.map_none, false_iff, reduceCtorEq]
    rintro ⟨rfl, h⟩
    exact hfits h

/-- What `detour` writes is the jump and what the code was behind it. -/
theorem detour_writes {site : HookSite} {target : ℕ} {jmpRel : JmpRel} {code : List UInt8}
    {s s' : Session} (h : site.detour target jmpRel code s = (true, s')) :
    s'.writes = s.writes ++
      [(target, jmpRel.asBytes ++ (site.bytes.toList.take 8).drop jmpRelLen)] := by
  unfold HookSite.detour at h
  simp only at h
  split_ifs at h
  · obtain rfl := (Prod.mk.inj h).2
    rfl
  · cases (Prod.mk.inj h).1

/-- A jump that keeps the bytes of the code from `len` on is written with those bytes. -/
theorem Keeps.getElem?_written {bytes : Vector UInt8 disasmLen} {len i : ℕ} {jmpRel : JmpRel}
    (h : jmpRel.Keeps bytes len) (hi : min len jmpRelLen ≤ i) (hi' : i < 8) :
    (jmpRel.asBytes ++ (bytes.toList.take 8).drop jmpRelLen)[i]? = bytes.toList[i]? := by
  have hasBytes : jmpRel.asBytes.length = jmpRelLen := by
    simp [asBytes, jmpRelLen]
  rcases Nat.lt_or_ge i jmpRelLen with hlt | hge
  · rw [List.getElem?_append_left (by omega)]
    exact h i (by omega) hlt
  · rw [List.getElem?_append_right (by omega), hasBytes, List.getElem?_drop, List.getElem?_take,
      if_pos (by omega), Nat.add_sub_cancel' hge]

/-- The jump from `target` leads to `t`, and `detour` writes it over the bytes in front of
`len` only. -/
structure Reaches (jmpRel : JmpRel) (bytes : Vector UInt8 disasmLen) (len target t : ℕ) :
    Prop where
  leads : (target : ℤ) + jmpRelLen + jmpRel.disp = t
  writes : ∀ (site : HookSite) (code : List UInt8) (s s' : Session), site.bytes = bytes →
    site.detour target jmpRel code s = (true, s') →
      ∃ written, s'.writes = s.writes ++ [(target, written)] ∧ written.length = 8 ∧
        ∀ i, min len jmpRelLen ≤ i → i < 8 → written[i]? = bytes.toList[i]?

/-- A target is in the range of the short jump exactly if a jump there exists and has the
bytes of the code from `len` on. -/
theorem shortEncodingRange_exact (bytes : Vector UInt8 disasmLen) {len target t : ℕ}
    (hlen : 0 < len) (htarget : target ≤ isizeMax) (ht : t ≤ isizeMax) :
    ∃ range, shortEncodingRange bytes len = some range ∧
      (Admits target range.1 range.2 t ↔
        ∃ jmpRel, encode target t = some jmpRel ∧ jmpRel.Keeps bytes len) ∧
      (Admits target range.1 range.2 t →
        ∃ jmpRel, encode target t = some jmpRel ∧ jmpRel.Reaches bytes len target t) := by
  have hadmits : Admits target
      (.included (shortDisp bytes len [0x00, 0x00, 0x00, 0x80] + jmpRelLen))
      (.included (shortDisp bytes len [0xff, 0xff, 0xff, 0x7f] + jmpRelLen)) t ↔
        ∃ jmpRel, encode target t = some jmpRel ∧ jmpRel.Keeps bytes len := by
    have hmem := shortDisp_mem_iff bytes hlen ((t : ℤ) - target - jmpRelLen)
    have hshift : Admits target
        (.included (shortDisp bytes len [0x00, 0x00, 0x00, 0x80] + jmpRelLen))
        (.included (shortDisp bytes len [0xff, 0xff, 0xff, 0x7f] + jmpRelLen)) t ↔
          shortDisp bytes len [0x00, 0x00, 0x00, 0x80] ≤ (t : ℤ) - target - jmpRelLen ∧
            (t : ℤ) - target - jmpRelLen ≤ shortDisp bytes len [0xff, 0xff, 0xff, 0x7f] := by
      simp only [Admits, Bound.AdmitsFrom, Bound.AdmitsTo]
      omega
    rw [hshift, hmem]
    constructor
    · rintro ⟨hfits, hkeeps⟩
      exact ⟨_, (encode_eq_some_iff htarget ht).2 ⟨rfl, hfits⟩, hkeeps⟩
    · rintro ⟨⟨disp⟩, hencode, hkeeps⟩
      obtain ⟨rfl, hfits⟩ := (encode_eq_some_iff htarget ht).1 hencode
      exact ⟨hfits, hkeeps⟩
  refine ⟨_, if_pos hlen, hadmits, fun h => ?_⟩
  obtain ⟨jmpRel, hencode, hkeeps⟩ := hadmits.1 h
  have hdisp := ((encode_eq_some_iff htarget ht).1 hencode).1
  refine ⟨jmpRel, hencode, by omega, ?_⟩
  rintro site code s s' rfl hdetour
  refine ⟨_, detour_writes hdetour, ?_, fun i => hkeeps.getElem?_written⟩
  have hbytes := length_bytes site.bytes
  simp [asBytes, jmpRelLen, hbytes]

/-- A `push` of one byte in front of a `sub` : the one thunk that a jump with the bytes of the `sub`
leads to. -/
theorem shortEncodingRange_exact_pushSub :
    ∃ jmpRel, encode 0x401000 0x312c934d = some jmpRel ∧ jmpRel.Keeps pushSubSample 1 ∧
      jmpRel.Reaches pushSubSample 1 0x401000 0x312c934d := by
  obtain ⟨range, hrange, hiff, hreaches⟩ := shortEncodingRange_exact (t := 0x312c934d) pushSubSample
    (show 0 < 1 by decide) (show 0x401000 ≤ isizeMax by decide) (by decide)
  have hkeeps : ∃ jmpRel, encode 0x401000 0x312c934d = some jmpRel ∧
      jmpRel.Keeps pushSubSample 1 :=
    ⟨⟨0x30ec8348⟩, by decide, fun i hi hlt => (show ∀ i < jmpRelLen, 1 ≤ i →
      (asBytes ⟨0x30ec8348⟩)[i]? = pushSubSample.toList[i]? by decide) i hlt hi⟩
  obtain ⟨jmpRel, hencode, hjmpRel⟩ := hreaches (hiff.2 hkeeps)
  obtain ⟨jmpRel', hencode', hkeeps'⟩ := hkeeps
  obtain rfl : jmpRel = jmpRel' := Option.some.inj (hencode.symm.trans hencode')
  exact ⟨jmpRel, hencode, hkeeps', hjmpRel⟩

end JmpRel

end Diversion
