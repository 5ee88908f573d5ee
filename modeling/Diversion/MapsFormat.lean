import Diversion.Lib.FromFn
import Diversion.ProcStat
import Diversion.Protection
import Mathlib.Tactic.IntervalCases

/-!
# The file of mappings

`proc_pid_maps` (src/installer/arch/os/linux.rs) reads `/proc/self/maps` record by record. A
text is the list of its bytes, as the separators are single bytes. A record is parsed from all
the text that remains, and not from its line, so the separators that are found have to be those
of the line. `MapsLine` is a line in the format of `proc_pid_maps(5)`, and the iterator inverts
the format (`yields_text`).

But the kernel writes the bytes of a path as they are, and `read_to_string` fails if the file is
not UTF-8. So `proc_pid_maps` inverts the format exactly where the rest of every line is
(`inverts_iff`).
-/

namespace Diversion

open FromFn

/-- The byte of an ASCII character. -/
def ascii (c : Char) : UInt8 :=
  c.toUInt8

/-! ## The standard library -/

/-- `str::split_once`, for a separator of one byte. -/
def splitOnce (sep : UInt8) : List UInt8 → Option (List UInt8 × List UInt8)
  | [] => none
  | b :: s =>
    if b = sep then some ([], s) else (splitOnce sep s).map fun (l, r) => (b :: l, r)

/-- `char::to_digit`, in base 16. -/
def toDigit16 (b : UInt8) : Option ℕ :=
  if ascii '0' ≤ b ∧ b ≤ ascii '9' then some (b.toNat - 48)
  else if ascii 'a' ≤ b ∧ b ≤ ascii 'f' then some (b.toNat - 87)
  else if ascii 'A' ≤ b ∧ b ≤ ascii 'F' then some (b.toNat - 55)
  else none

/-- One more digit, unless the number overflows. -/
def pushDigit (n : ℕ) (b : UInt8) : Option ℕ := do
  let d ← toDigit16 b
  if 16 * n + d < wordSize then some (16 * n + d) else none

/-- `usize::from_str_radix`, in base 16. A sign alone is no number, and there is no minus. -/
def usizeFromStrRadix16 (src : List UInt8) : Option ℕ :=
  if src = [] ∨ src = [ascii '+'] ∨ src = [ascii '-'] then none
  else if src.head? = some (ascii '+') then src.tail.foldlM pushDigit 0
  else src.foldlM pushDigit 0

/-! ## The parser -/

namespace Protection

/-- The reads of `read_prot!` in turn. The protection is complete when the bytes run out. -/
def readProt : List (UInt8 × UInt32) → List UInt8 → Protection → Protection
  | [], _, out => out
  | _ :: _, [], out => out
  | (char, prot) :: reads, next :: bytes, out =>
    readProt reads bytes (if next = char then ⟨out.bits ||| prot⟩ else out)

/-- `Protection::from_str`. -/
def fromStr (s : List UInt8) : Protection :=
  readProt [(ascii 'r', protRead), (ascii 'w', protWrite), (ascii 'x', protExec)] s ⟨0⟩

end Protection

/-- `RegionInfo::from_str`, `None` for a line that is not in the format. -/
def RegionInfo.fromStr (s : List UInt8) : Option RegionInfo := do
  let (start, s) ← splitOnce (ascii '-') s
  let (stop, s) ← splitOnce (ascii ' ') s
  let (prot, _) ← splitOnce (ascii ' ') s
  let start ← usizeFromStrRadix16 start
  let stop ← usizeFromStrRadix16 stop
  return ⟨start, stop, Protection.fromStr prot⟩

/-- `fs::read_to_string`, where the text is its bytes. -/
def readMaps (file : List UInt8) : Except IoError (List UInt8) :=
  if (readToString file.toByteArray).isSome then .ok file
  else .error ⟨"stream did not contain valid UTF-8"⟩

/-- `proc_pid_maps` up to its iterator : the text, and where the first record starts. -/
def procPidMaps (file : List UInt8) : Except IoError (List UInt8 × Option ℕ) := do
  let maps ← readMaps file
  return (maps, some 0)

/-- One call of the closure of `proc_pid_maps`, which owns `maps` and `pos`. -/
def procPidMapsNext (maps : List UInt8) (pos : Option ℕ) :
    Option (Except IoError RegionInfo × Option ℕ) := do
  let next ← pos
  let map := maps.drop next
  let pos := (map.findIdx? (· == ascii '\n')).map fun index => next + index + 1
  -- the empty text after a trailing newline
  if map.isEmpty then none
  else some ((RegionInfo.fromStr map).elim
    (.error ⟨"unexpected /proc/pid/maps format"⟩) .ok, pos)

/-! ## The format -/

/-- The byte of a hexadecimal digit in lower or upper case. -/
def hexByte (upper : Bool) (d : ℕ) : UInt8 :=
  UInt8.ofNat (if d < 10 then 48 + d else if upper then 55 + d else 87 + d)

/-- The bytes are a hexadecimal numeral of the number, in digits of either case and with any
number of leading zeros. -/
inductive IsHex : List UInt8 → ℕ → Prop
  | digit (upper : Bool) {d : ℕ} (hd : d < 16) : IsHex [hexByte upper d] d
  | snoc (upper : Bool) {bytes : List UInt8} {n d : ℕ} (h : IsHex bytes n) (hd : d < 16) :
      IsHex (bytes ++ [hexByte upper d]) (16 * n + d)

/-- A region and how its line is written. -/
structure MapsLine where
  start : ℕ
  stop : ℕ
  startHex : List UInt8
  stopHex : List UInt8
  read : Bool
  write : Bool
  execute : Bool
  shared : Bool
  /-- The offset, the device, the inode and the path, which the kernel takes as bytes. -/
  rest : List UInt8
  start_lt : start < wordSize
  stop_lt : stop < wordSize
  isHex_start : IsHex startHex start
  isHex_stop : IsHex stopHex stop
  newline_not_mem_rest : ascii '\n' ∉ rest

namespace MapsLine

/-- The `PROT_*` bits of the permissions. -/
def prot (line : MapsLine) : Protection where
  bits := (if line.read then Protection.protRead else 0) |||
    (if line.write then Protection.protWrite else 0) |||
    (if line.execute then Protection.protExec else 0)

/-- What is read off the line. -/
def info (line : MapsLine) : RegionInfo :=
  ⟨line.start, line.stop, line.prot⟩

/-- The four permission characters. -/
def perms (line : MapsLine) : List UInt8 :=
  [ascii (if line.read then 'r' else '-'), ascii (if line.write then 'w' else '-'),
    ascii (if line.execute then 'x' else '-'), ascii (if line.shared then 's' else 'p')]

/-- The line, without a newline. -/
def bytes (line : MapsLine) : List UInt8 :=
  line.startHex ++ ascii '-' :: (line.stopHex ++ ascii ' ' ::
    (line.perms ++ ascii ' ' :: line.rest))

/-- The lines, with a newline after the last one or without. -/
def text (trailing : Bool) : List MapsLine → List UInt8
  | [] => []
  | [line] => line.bytes ++ if trailing then [ascii '\n'] else []
  | line :: lines => line.bytes ++ ascii '\n' :: text trailing lines

/-- `proc_pid_maps` reads the file and yields the regions of the lines with their protections, in
order and without an error, and then ends. -/
def Inverts (trailing : Bool) (lines : List MapsLine) : Prop :=
  ∃ maps pos, procPidMaps (text trailing lines) = .ok (maps, pos) ∧
    Yields (procPidMapsNext maps) pos (lines.map fun line => .ok line.info)

end MapsLine

/-! ## UTF-8 -/

section Utf8

/-- The bytes are text in UTF-8. -/
def IsUtf8 (bytes : List UInt8) : Prop :=
  bytes.toByteArray.IsValidUTF8

instance (bytes : List UInt8) : Decidable (IsUtf8 bytes) :=
  inferInstanceAs (Decidable (ByteArray.IsValidUTF8 _))

variable {b : UInt8} {l r : List UInt8}

theorem isUtf8_nil : IsUtf8 [] :=
  ⟨[], rfl⟩

/-- An ASCII byte is the encoding of a character. -/
theorem exists_utf8EncodeChar (hb : b < 128) : ∃ c, String.utf8EncodeChar c = [b] := by
  have hlt : b.toNat < 128 := UInt8.lt_iff_toNat_lt.1 hb
  have hval : b.toUInt32.toNat = b.toNat := UInt8.toNat_toUInt32 b
  have hvalid : b.toUInt32.isValidChar := Or.inl (hval.trans_lt (by omega))
  obtain ⟨c, hc⟩ : ∃ c : Char, c.val = b.toUInt32 := ⟨⟨_, hvalid⟩, rfl⟩
  have hsize : c.utf8Size = 1 := by
    rw [Char.utf8Size_eq_one_iff, UInt32.le_iff_toNat_le, hc, hval]
    exact Nat.le_of_lt_succ hlt
  refine ⟨c, (String.utf8EncodeChar_eq_singleton hsize).trans ?_⟩
  rw [hc, UInt8.toUInt8_toUInt32]

/-- An ASCII byte separates texts. -/
theorem isUtf8_append_cons (hb : b < 128) : IsUtf8 (l ++ b :: r) ↔ IsUtf8 l ∧ IsUtf8 r := by
  obtain ⟨c, hc⟩ := exists_utf8EncodeChar hb
  have hcons : (b :: r).toByteArray = [c].utf8Encode ++ r.toByteArray := by
    rw [List.utf8Encode_singleton, hc, ← List.toByteArray_append, List.singleton_append]
  have hr : (b :: r).toByteArray.IsValidUTF8 ↔ IsUtf8 r := by
    rw [hcons, ByteArray.isValidUTF8_utf8Encode_singleton_append_iff, IsUtf8]
  have hfirst : b.IsUTF8FirstByte := by
    have hlt : 0 < (String.utf8EncodeChar c).length := by
      rw [hc]
      exact Nat.one_pos
    have hzero : ((String.utf8EncodeChar c)[0]).IsUTF8FirstByte :=
      UInt8.isUTF8FirstByte_getElem_utf8EncodeChar.2 rfl
    simpa only [hc, List.getElem_cons_zero] using hzero
  rw [IsUtf8, List.toByteArray_append, ← hr]
  exact ⟨isValidUTF8_split (by simp) (by simpa using hfirst), fun h => h.1.append h.2⟩

theorem isUtf8_of_ascii (h : ∀ b ∈ l, b < 128) : IsUtf8 l := by
  induction l with
  | nil => exact isUtf8_nil
  | cons b l ih =>
    exact (isUtf8_append_cons (l := []) (h b List.mem_cons_self)).2
      ⟨isUtf8_nil, ih fun c hc => h c (List.mem_cons_of_mem b hc)⟩

end Utf8

/-! ## Numerals -/

section Numerals

variable {d n : ℕ} {b : UInt8} {bytes : List UInt8}

theorem toDigit16_hexByte (upper : Bool) (hd : d < 16) :
    toDigit16 (hexByte upper d) = some d := by
  cases upper <;> interval_cases d <;> rfl

theorem IsHex.ne_nil (h : IsHex bytes n) : bytes ≠ [] := by
  cases h <;> simp

/-- The bytes of a numeral are digits. -/
theorem IsHex.isSome_toDigit16 (h : IsHex bytes n) (hb : b ∈ bytes) : (toDigit16 b).isSome := by
  induction h with
  | digit upper hd =>
    obtain rfl := List.mem_singleton.1 hb
    simp [toDigit16_hexByte upper hd]
  | snoc upper _ hd ih =>
    rcases List.mem_append.1 hb with hb | hb
    · exact ih hb
    · obtain rfl := List.mem_singleton.1 hb
      simp [toDigit16_hexByte upper hd]

/-- What is no digit is not in a numeral. -/
theorem IsHex.not_mem (h : IsHex bytes n) (sep : UInt8) (hsep : toDigit16 sep = none) :
    sep ∉ bytes := by
  intro hmem
  have := h.isSome_toDigit16 hmem
  simp [hsep] at this

theorem pushDigit_hexByte (upper : Bool) (hd : d < 16) (hlt : 16 * n + d < wordSize) :
    pushDigit n (hexByte upper d) = some (16 * n + d) := by
  simp [pushDigit, toDigit16_hexByte upper hd, hlt]

theorem IsHex.foldlM_pushDigit (h : IsHex bytes n) (hlt : n < wordSize) :
    bytes.foldlM pushDigit 0 = some n := by
  induction h with
  | @digit upper d hd =>
    have hpush := pushDigit_hexByte (n := 0) upper hd (by omega)
    simpa using hpush
  | snoc upper _ hd ih =>
    rw [List.foldlM_append, ih (by omega)]
    simpa using pushDigit_hexByte upper hd hlt

/-- A numeral of an address is parsed as the address. -/
theorem IsHex.usizeFromStrRadix16 (h : IsHex bytes n) (hlt : n < wordSize) :
    usizeFromStrRadix16 bytes = some n := by
  have hplus := h.not_mem (ascii '+') rfl
  have hminus := h.not_mem (ascii '-') rfl
  have hsign : ¬(bytes = [] ∨ bytes = [ascii '+'] ∨ bytes = [ascii '-']) := by
    rintro (rfl | rfl | rfl)
    · exact h.ne_nil rfl
    · exact hplus (List.mem_singleton.2 rfl)
    · exact hminus (List.mem_singleton.2 rfl)
  have hhead : bytes.head? ≠ some (ascii '+') := fun hhead => hplus (List.mem_of_mem_head? hhead)
  rw [Diversion.usizeFromStrRadix16, if_neg hsign, if_neg hhead]
  exact h.foldlM_pushDigit hlt

end Numerals

/-! ## A record -/

theorem splitOnce_append {sep : UInt8} {l s : List UInt8} (h : sep ∉ l) :
    splitOnce sep (l ++ sep :: s) = some (l, s) := by
  induction l with
  | nil => simp [splitOnce]
  | cons b l ih =>
    have hne : b ≠ sep := fun hb => h (by simp [hb])
    simp [splitOnce, hne, ih fun hmem => h (by simp [hmem])]

namespace MapsLine

variable (line : MapsLine)

theorem fromStr_perms : Protection.fromStr line.perms = line.prot := by
  unfold perms prot
  cases line.read <;> cases line.write <;> cases line.execute <;> rfl

theorem space_not_mem_perms : ascii ' ' ∉ line.perms := by
  unfold perms
  cases line.read <;> cases line.write <;> cases line.execute <;> cases line.shared <;> decide

theorem newline_not_mem_perms : ascii '\n' ∉ line.perms := by
  unfold perms
  cases line.read <;> cases line.write <;> cases line.execute <;> cases line.shared <;> decide

theorem newline_not_mem_bytes : ascii '\n' ∉ line.bytes := by
  have hstart := line.isHex_start.not_mem (ascii '\n') rfl
  have hstop := line.isHex_stop.not_mem (ascii '\n') rfl
  simp only [bytes, List.mem_append, List.mem_cons, not_or]
  exact ⟨hstart, by decide, hstop, by decide, line.newline_not_mem_perms, by decide,
    line.newline_not_mem_rest⟩

theorem bytes_ne_nil : line.bytes ≠ [] := by
  simp [bytes]

/-- The record is the line's, whatever follows it. -/
theorem fromStr_bytes_append (post : List UInt8) :
    RegionInfo.fromStr (line.bytes ++ post) = some line.info := by
  have hstart := splitOnce_append (s := line.stopHex ++ ascii ' ' ::
    (line.perms ++ ascii ' ' :: (line.rest ++ post))) (line.isHex_start.not_mem (ascii '-') rfl)
  have hstop := splitOnce_append (s := line.perms ++ ascii ' ' :: (line.rest ++ post))
    (line.isHex_stop.not_mem (ascii ' ') rfl)
  have hperms := splitOnce_append (s := line.rest ++ post) line.space_not_mem_perms
  simp only [RegionInfo.fromStr, bytes, List.append_assoc, List.cons_append, hstart, hstop, hperms,
    line.isHex_start.usizeFromStrRadix16 line.start_lt,
    line.isHex_stop.usizeFromStrRadix16 line.stop_lt, line.fromStr_perms, info,
    Option.bind_eq_bind, Option.bind_some, Option.pure_def]

/-! ## The records -/

variable {line} {pre post maps : List UInt8}

theorem findIdx?_bytes (line : MapsLine) :
    line.bytes.findIdx? (· == ascii '\n') = none := by
  refine List.findIdx?_eq_none_iff.2 fun b hb => ?_
  exact beq_eq_false_iff_ne.2 fun heq => line.newline_not_mem_bytes (heq ▸ hb)

/-- The newline that is found is the one of the line. -/
theorem findIdx?_line (line : MapsLine) (post : List UInt8) :
    (line.bytes ++ ascii '\n' :: post).findIdx? (· == ascii '\n') = some line.bytes.length := by
  rw [List.findIdx?_append, findIdx?_bytes, List.findIdx?_cons]
  simp

/-- One call at the start of a line that ends in a newline. -/
theorem next_line (hmaps : maps = pre ++ (line.bytes ++ ascii '\n' :: post)) :
    procPidMapsNext maps (some pre.length) =
      some (.ok line.info, some (pre ++ (line.bytes ++ [ascii '\n'])).length) := by
  subst hmaps
  simp only [procPidMapsNext, Option.bind_eq_bind, Option.bind_some, List.drop_left,
    findIdx?_line, fromStr_bytes_append]
  simp [bytes_ne_nil, Nat.add_assoc]

/-- One call at the start of a last line without a newline. -/
theorem next_last (hmaps : maps = pre ++ line.bytes) :
    procPidMapsNext maps (some pre.length) = some (.ok line.info, none) := by
  subst hmaps
  have hrecord := line.fromStr_bytes_append []
  rw [List.append_nil] at hrecord
  simp [procPidMapsNext, findIdx?_bytes, hrecord, bytes_ne_nil]

theorem next_end (maps : List UInt8) : procPidMapsNext maps (some maps.length) = none := by
  simp [procPidMapsNext]

/-- From the start of any line on, the records of the lines that remain. -/
theorem yields_text_from {trailing : Bool} {lines : List MapsLine}
    (hmaps : maps = pre ++ text trailing lines) :
    Yields (procPidMapsNext maps) (some pre.length) (lines.map fun line => .ok line.info) := by
  induction lines generalizing pre with
  | nil =>
    obtain rfl : maps = pre := by simpa [text] using hmaps
    exact .nil (next_end maps)
  | cons line lines ih =>
    cases lines with
    | nil =>
      cases trailing with
      | false =>
        exact .cons (next_last (by simpa [text] using hmaps)) (.nil rfl)
      | true =>
        have hend : maps = pre ++ (line.bytes ++ ascii '\n' :: []) := hmaps
        refine .cons (next_line hend) (.nil ?_)
        rw [← hend]
        exact next_end maps
    | cons line' lines =>
      have hline : maps = pre ++ (line.bytes ++ ascii '\n' :: text trailing (line' :: lines)) :=
        hmaps
      refine .cons (next_line hline) (ih ?_)
      rw [hline]
      simp

end MapsLine

/-- The iterator yields the regions of the lines with their protections, and then ends. -/
theorem MapsLine.yields_text (lines : List MapsLine) (trailing : Bool) :
    Yields (procPidMapsNext (text trailing lines)) (some 0)
      (lines.map fun line => .ok line.info) := by
  have hmaps : text trailing lines = [] ++ text trailing lines := rfl
  exact yields_text_from hmaps

/-! ## The file -/

namespace MapsLine

/-- The digits of a numeral are ASCII. -/
theorem isUtf8_of_isHex {bytes : List UInt8} {n : ℕ} (h : IsHex bytes n) : IsUtf8 bytes := by
  refine isUtf8_of_ascii fun b hb => ?_
  have hdigit := h.isSome_toDigit16 hb
  unfold toDigit16 at hdigit
  split_ifs at hdigit with h09 haf hAF
  · exact UInt8.lt_of_le_of_lt h09.2 (by decide)
  · exact UInt8.lt_of_le_of_lt haf.2 (by decide)
  · exact UInt8.lt_of_le_of_lt hAF.2 (by decide)
  · cases hdigit

theorem isUtf8_perms (line : MapsLine) : IsUtf8 line.perms := by
  refine isUtf8_of_ascii ?_
  simp only [perms, List.forall_mem_cons]
  refine ⟨?_, ?_, ?_, ?_, by simp⟩ <;> split_ifs <;> decide

/-- A line is text if its rest is. -/
theorem isUtf8_bytes_iff (line : MapsLine) : IsUtf8 line.bytes ↔ IsUtf8 line.rest := by
  rw [bytes, isUtf8_append_cons (by decide), isUtf8_append_cons (by decide),
    isUtf8_append_cons (by decide)]
  have hstart := isUtf8_of_isHex line.isHex_start
  have hstop := isUtf8_of_isHex line.isHex_stop
  have hperms := line.isUtf8_perms
  exact ⟨fun h => h.2.2.2, fun h => ⟨hstart, hstop, hperms, h⟩⟩

theorem isUtf8_text_iff (trailing : Bool) (lines : List MapsLine) :
    IsUtf8 (text trailing lines) ↔ ∀ line ∈ lines, IsUtf8 line.rest := by
  induction lines with
  | nil => simp [text, isUtf8_nil]
  | cons line lines ih =>
    cases lines with
    | nil =>
      rw [text, List.forall_mem_singleton, ← isUtf8_bytes_iff]
      cases trailing with
      | false => simp
      | true =>
        rw [if_pos rfl, isUtf8_append_cons (by decide)]
        exact and_iff_left isUtf8_nil
    | cons line' lines =>
      have hcons : text trailing (line :: line' :: lines) =
          line.bytes ++ ascii '\n' :: text trailing (line' :: lines) := rfl
      rw [hcons, isUtf8_append_cons (by decide), ih, isUtf8_bytes_iff]
      exact (List.forall_mem_cons (p := fun line : MapsLine => IsUtf8 line.rest)).symm

theorem readMaps_eq (file : List UInt8) : readMaps file =
    if IsUtf8 file then .ok file else .error ⟨"stream did not contain valid UTF-8"⟩ := by
  simp only [readMaps, isSome_readToString_iff]
  rfl

/-- The file is read only if it is text. -/
theorem isUtf8_of_inverts {trailing : Bool} {lines : List MapsLine} (h : Inverts trailing lines) :
    IsUtf8 (text trailing lines) := by
  obtain ⟨maps, pos, hmaps, -⟩ := h
  by_contra hutf8
  rw [procPidMaps, readMaps_eq, if_neg hutf8] at hmaps
  cases hmaps

end MapsLine

/-- `proc_pid_maps` inverts the format exactly where the rest of every line is UTF-8. -/
theorem MapsLine.inverts_iff (lines : List MapsLine) (trailing : Bool) :
    Inverts trailing lines ↔ ∀ line ∈ lines, IsUtf8 line.rest := by
  rw [← isUtf8_text_iff trailing]
  refine ⟨isUtf8_of_inverts, fun hutf8 => ⟨_, some 0, ?_, yields_text lines trailing⟩⟩
  rw [procPidMaps, readMaps_eq, if_pos hutf8]
  rfl

/-- A mapping of a file with the given name. -/
def MapsLine.sample (name : List UInt8) (h : ascii '\n' ∉ name) : MapsLine where
  start := 0x8000
  stop := 0xF000
  startHex := "8000".toList.map ascii
  stopHex := "F000".toList.map ascii
  read := true
  write := false
  execute := true
  shared := false
  rest := "00001000 08:01 42 /tmp/".toList.map ascii ++ name
  start_lt := by decide
  stop_lt := by decide
  isHex_start := (((IsHex.digit (d := 8) false (by decide)).snoc (d := 0) false (by decide)).snoc
    (d := 0) false (by decide)).snoc (d := 0) false (by decide)
  isHex_stop := (((IsHex.digit (d := 15) true (by decide)).snoc (d := 0) true (by decide)).snoc
    (d := 0) true (by decide)).snoc (d := 0) true (by decide)
  newline_not_mem_rest := by
    rw [List.mem_append, not_or]
    exact ⟨by decide, h⟩

/-- `café` is a name in UTF-8, of four characters and five bytes. -/
theorem MapsLine.inverts_iff_cafe :
    Inverts false [sample [] (by decide), sample [0x63, 0x61, 0x66, 0xc3, 0xa9] (by decide)] :=
  (inverts_iff _ _).2 (by decide +kernel)

/-- In Latin-1 it is none, and then not even the first region is yielded. -/
theorem MapsLine.not_inverts_latin1 :
    ¬Inverts true [sample [] (by decide), sample [0x63, 0x61, 0x66, 0xe9] (by decide)] := by
  intro h
  have hutf8 := isUtf8_of_inverts h
  revert hutf8
  decide +kernel

end Diversion
