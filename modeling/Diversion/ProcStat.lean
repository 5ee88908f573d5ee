import Mathlib.Data.Set.Basic
import Mathlib.Tactic.Common

/-!
# The start time of the process

On Linux the shared record is a named mapping, and the name has to be one per process :
`MmapBuilder::new` builds it from the process id and the start time, which `start_time` takes
from `/proc/self/stat` as the 22nd piece of the line between spaces. The second field of that
line is the name of the process in parentheses, and the kernel writes the name as it is.

`StatLine` is a line in the format of `proc_pid_stat(5)`, `NamesProcesses` what the mapping
name is for, over the processes with names from a given set. It holds exactly when the names
are text without spaces (`namesProcesses_iff`) : a space shifts every later field, and then the
start time no longer matters at all (`startTime_eq_of_space`).
-/

namespace Diversion

/-- A string, as the list of its characters. -/
abbrev Text := List Char

/-- An unsigned number in decimal. -/
def decimal (n : ℕ) : Text :=
  Nat.toDigits 10 n

theorem decimal_injective : Function.Injective decimal := by
  intro m n h
  have hm : Nat.ofDigitChars 10 (decimal m) 0 = m := Nat.ofDigitChars_ten_toDigits
  have hn : Nat.ofDigitChars 10 (decimal n) 0 = n := Nat.ofDigitChars_ten_toDigits
  rw [← hm, ← hn, h]

theorem space_not_mem_decimal (n : ℕ) : ' ' ∉ decimal n := by
  intro h
  have hd : Char.isDigit ' ' = true :=
    Nat.isDigit_of_mem_toDigits (b := 10) (by decide) (by decide) h
  exact absurd hd (by decide)

/-- A signed number in decimal. -/
def signedDecimal (z : ℤ) : Text :=
  if z < 0 then '-' :: decimal z.natAbs else decimal z.natAbs

theorem space_not_mem_signedDecimal (z : ℤ) : ' ' ∉ signedDecimal z := by
  unfold signedDecimal
  split_ifs
  · simpa using space_not_mem_decimal z.natAbs
  · exact space_not_mem_decimal z.natAbs

/-! ## The line -/

/-- The fields of `/proc/self/stat`. The name is any bytes : the kernel does not ask for UTF-8. -/
structure StatLine where
  pid : ℕ
  comm : ByteArray
  state : Char
  /-- Fields 4 to 21, `ppid` to `itrealvalue`. -/
  ppidToItrealvalue : List ℤ
  starttime : ℕ
  /-- Fields 23 to 52, `vsize` to `exit_code`. -/
  vsizeToExitCode : List ℤ
  state_ne_space : state ≠ ' '
  length_ppidToItrealvalue : ppidToItrealvalue.length = 18
  length_vsizeToExitCode : vsizeToExitCode.length = 30

namespace StatLine

/-- The text before the name. -/
def front (s : StatLine) : Text :=
  decimal s.pid ++ [' ', '(']

/-- The text from the name to the field before the start time, for a name that is text. -/
def middle (s : StatLine) (comm : Text) : Text :=
  comm ++ [')', ' ', s.state] ++ s.ppidToItrealvalue.flatMap fun z => ' ' :: signedDecimal z

/-- The text after the start time. -/
def back (s : StatLine) : Text :=
  s.vsizeToExitCode.flatMap (fun z => ' ' :: signedDecimal z) ++ ['\n']

/-- The line. -/
def line (s : StatLine) (comm : Text) : Text :=
  s.front ++ s.middle comm ++ ' ' :: decimal s.starttime ++ s.back

/-- The bytes of the file. -/
def bytes (s : StatLine) : ByteArray :=
  (String.ofList s.front).toUTF8 ++ s.comm ++
    (String.ofList (s.middle [] ++ ' ' :: decimal s.starttime ++ s.back)).toUTF8

end StatLine

/-! ## The source -/

/-- `fs::read_to_string` : it fails on bytes that are not UTF-8. -/
def readToString (bytes : ByteArray) : Option Text :=
  (String.fromUTF8? bytes).map String.toList

/-- `start_time`. -/
def startTime (stat : ByteArray) : Option Text := do
  let stat ← readToString stat
  return (stat.splitOn ' ')[21]?.getD ['0']

/-- `VERSION`, the major version of the crate. -/
def abiVersion : ℕ :=
  0

/-- `MmapName::new`. -/
def mmapNameNew (name : Text) : Text :=
  '/' :: name ++ ['\x00']

/-- The name that `MmapBuilder::new` builds, with `pid` from `process::id`. -/
def mmapBuilderName (pid : ℕ) (stat : ByteArray) : Option Text := do
  let startTime ← startTime stat
  return mmapNameNew
    ("diversion-".toList ++ decimal abiVersion ++ '-' :: decimal pid ++ '-' :: startTime)

/-! ## Text and bytes -/

theorem isValidUTF8_utf8Encode_append {b : ByteArray} (t : Text) :
    (t.utf8Encode ++ b).IsValidUTF8 ↔ b.IsValidUTF8 := by
  induction t with
  | nil => simp
  | cons c t ih =>
    rw [← List.singleton_append, List.utf8Encode_append, ByteArray.append_assoc,
      ByteArray.isValidUTF8_utf8Encode_singleton_append_iff, ih]

/-- Text is split where the first byte of a character stands. -/
theorem isValidUTF8_split {b d : ByteArray} (hsize : 0 < d.size) (hfirst : d[0].IsUTF8FirstByte)
    (h : (b ++ d).IsValidUTF8) : b.IsValidUTF8 ∧ d.IsValidUTF8 := by
  let s : String := String.ofByteArray (b ++ d) h
  have hvalid : (String.Pos.Raw.mk b.size).IsValid s := by
    refine String.Pos.Raw.isValid_iff_isUTF8FirstByte.2 (Or.inr ⟨?_, ?_⟩)
    · simp only [s, String.Pos.Raw.lt_iff, String.byteIdx_rawEndPos, ← String.size_toByteArray,
        ByteArray.size_append]
      omega
    · simpa [s, String.getUTF8Byte, ByteArray.getElem_append_right] using hfirst
  have hb := (String.Pos.Raw.isValid_iff_isValidUTF8_extract_zero.1 hvalid).2
  have hd := hvalid.isValidUTF8_extract_utf8ByteSize
  have hs : s.utf8ByteSize = b.size + d.size := by
    rw [← String.size_toByteArray]
    simp [s]
  rw [hs] at hd
  exact ⟨by simpa [s, ByteArray.extract_append_eq_left] using hb,
    by simpa [s, ByteArray.extract_append_eq_right] using hd⟩

/-- What stands before text is text : the first byte of a character never continues one. -/
theorem isValidUTF8_append_utf8Encode {b : ByteArray} {t : Text} (ht : t ≠ [])
    (h : (b ++ t.utf8Encode).IsValidUTF8) : b.IsValidUTF8 := by
  have hsize : 0 < t.utf8Encode.size := by
    rw [Nat.pos_iff_ne_zero, ne_eq, ByteArray.size_eq_zero_iff]
    simpa using ht
  have hfirst := ByteArray.isValidUTF8_utf8Encode.isUTF8FirstByte_getElem_zero hsize
  exact (isValidUTF8_split hsize hfirst h).1

theorem readToString_utf8Encode (t : Text) : readToString t.utf8Encode = some t := by
  have h : t.utf8Encode.IsValidUTF8 := ByteArray.isValidUTF8_utf8Encode
  have he : String.ofByteArray t.utf8Encode h = String.ofList t := by
    rw [← String.toByteArray_inj, String.toByteArray_ofList]
  simp [readToString, String.fromUTF8?, h, String.fromUTF8, he]

theorem isSome_readToString_iff {bytes : ByteArray} :
    (readToString bytes).isSome ↔ bytes.IsValidUTF8 := by
  by_cases hb : bytes.IsValidUTF8 <;> simp [readToString, String.fromUTF8?, hb]

theorem isValidUTF8_of_readToString {bytes : ByteArray} {t : Text}
    (h : readToString bytes = some t) : bytes.IsValidUTF8 :=
  isSome_readToString_iff.1 (by rw [h]; rfl)

/-! ## The pieces between spaces -/

theorem length_splitOn (t : Text) : (t.splitOn ' ').length = t.count ' ' + 1 := by
  induction t with
  | nil => rfl
  | cons c t ih =>
    rw [List.splitOn_cons_eq_if_modifyHead]
    by_cases hc : c = ' '
    · simp [hc, ih]
    · simp [hc, ih]

theorem count_space_eq_zero {t : Text} (h : ' ' ∉ t) : t.count ' ' = 0 :=
  List.count_eq_zero.2 h

theorem count_space_fields (zs : List ℤ) :
    (zs.flatMap fun z => ' ' :: signedDecimal z).count ' ' = zs.length := by
  induction zs with
  | nil => rfl
  | cons z zs ih =>
    rw [List.flatMap_cons, List.count_append, ih, List.count_cons_self,
      count_space_eq_zero (space_not_mem_signedDecimal z), List.length_cons]
    omega

namespace StatLine

variable (s : StatLine)

/-- The start time is preceded by 21 spaces and those of the name. -/
theorem length_splitOn_front_middle (comm : Text) :
    ((s.front ++ s.middle comm).splitOn ' ').length = 21 + comm.count ' ' := by
  have hstate : (s.state == ' ') = false := by simpa using s.state_ne_space
  have hfront : s.front.count ' ' = 1 := by
    simp [front, count_space_eq_zero (space_not_mem_decimal s.pid)]
  have hmiddle : (s.middle comm).count ' ' = comm.count ' ' + 19 := by
    simp [middle, count_space_fields, s.length_ppidToItrealvalue, List.count_cons, hstate]
  rw [length_splitOn, List.count_append, hfront, hmiddle]
  omega

/-- The pieces of the line : those before the start time, the start time, those after it. -/
theorem splitOn_line (comm : Text) : ∃ rest, (s.line comm).splitOn ' ' =
    (s.front ++ s.middle comm).splitOn ' ' ++ decimal s.starttime :: rest := by
  obtain ⟨z, zs, hzs⟩ : ∃ z zs, s.vsizeToExitCode = z :: zs :=
    List.exists_cons_of_ne_nil (by
      intro hnil
      simpa [hnil] using s.length_vsizeToExitCode)
  have hback : ∃ b, s.back = ' ' :: b := ⟨_, by rw [back, hzs]; rfl⟩
  obtain ⟨b, hb⟩ := hback
  refine ⟨b.splitOn ' ', ?_⟩
  rw [line, hb, List.append_assoc, List.cons_append, List.splitOn_append_cons_self,
    List.splitOn_append_cons_self, List.splitOn_eq_singleton (space_not_mem_decimal s.starttime)]
  rfl

theorem readToString_bytes {comm : Text} (h : s.comm = comm.utf8Encode) :
    readToString s.bytes = some (s.line comm) := by
  have hline : s.line comm =
      s.front ++ comm ++ (s.middle [] ++ ' ' :: decimal s.starttime ++ s.back) := by
    simp [line, middle]
  have hbytes : s.bytes = (s.line comm).utf8Encode := by
    rw [bytes, h, hline, List.utf8Encode_append, List.utf8Encode_append,
      String.toUTF8_eq_toByteArray, String.toUTF8_eq_toByteArray, String.toByteArray_ofList,
      String.toByteArray_ofList]
  rw [hbytes, readToString_utf8Encode]

/-- The bytes are text only where the name is. -/
theorem isValidUTF8_comm {t : Text} (h : readToString s.bytes = some t) :
    s.comm.IsValidUTF8 := by
  have hbytes := isValidUTF8_of_readToString h
  rw [bytes, String.toUTF8_eq_toByteArray, String.toUTF8_eq_toByteArray,
    String.toByteArray_ofList, String.toByteArray_ofList] at hbytes
  have hfront := isValidUTF8_append_utf8Encode (by simp [middle]) hbytes
  exact (isValidUTF8_utf8Encode_append s.front).1 hfront

/-- Without a space in the name the 22nd piece is the start time. -/
theorem startTime_eq {comm : Text} (h : s.comm = comm.utf8Encode) (hspace : ' ' ∉ comm) :
    startTime s.bytes = some (decimal s.starttime) := by
  obtain ⟨rest, hrest⟩ := s.splitOn_line comm
  have hlen := s.length_splitOn_front_middle comm
  rw [count_space_eq_zero hspace] at hlen
  simp [startTime, s.readToString_bytes h, hrest, hlen]

/-- With a space in the name the 22nd piece comes before the start time. -/
theorem startTime_eq_of_space {comm : Text} (h : s.comm = comm.utf8Encode)
    (hspace : ' ' ∈ comm) :
    startTime s.bytes = some (((s.front ++ s.middle comm).splitOn ' ')[21]?.getD ['0']) := by
  obtain ⟨rest, hrest⟩ := s.splitOn_line comm
  have hlen := s.length_splitOn_front_middle comm
  have hpos : 0 < comm.count ' ' := List.count_pos_iff.2 hspace
  have hlt : 21 < ((s.front ++ s.middle comm).splitOn ' ').length := by omega
  have hpiece : ((s.line comm).splitOn ' ')[21]? =
      ((s.front ++ s.middle comm).splitOn ' ')[21]? := by
    rw [hrest, List.getElem?_append_left hlt]
  simp [startTime, s.readToString_bytes h, hpiece]

end StatLine

/-! ## Names of processes -/

theorem mmapNameNew_injective : Function.Injective mmapNameNew := by
  intro a b h
  simpa [mmapNameNew] using h

/-- The name has the start time in it, and the start time only as `start_time` reads it. -/
theorem mmapBuilderName_eq_iff {pid : ℕ} {stat stat' : ByteArray} :
    mmapBuilderName pid stat = mmapBuilderName pid stat' ↔ startTime stat = startTime stat' := by
  unfold mmapBuilderName
  cases h : startTime stat <;> cases h' : startTime stat' <;>
    simp [mmapNameNew_injective.eq_iff]

/-- What the mapping name is for, when the processes have their names from `names` : `start_time`
is the start time, the name is the same whenever one process builds it, whatever its name and the
other fields are by then, and two processes with one id at different times have different names. -/
structure NamesProcesses (names : Set ByteArray) : Prop where
  startTime_eq : ∀ s : StatLine, s.comm ∈ names →
    startTime s.bytes = some (decimal s.starttime)
  name_eq : ∀ s s' : StatLine, s.comm ∈ names → s'.comm ∈ names → s.pid = s'.pid →
    s.starttime = s'.starttime →
    ∃ name, mmapBuilderName s.pid s.bytes = some name ∧
      mmapBuilderName s'.pid s'.bytes = some name
  name_ne : ∀ s s' : StatLine, s.comm ∈ names → s'.comm ∈ names → s.pid = s'.pid →
    s.starttime ≠ s'.starttime →
    mmapBuilderName s.pid s.bytes ≠ mmapBuilderName s'.pid s'.bytes

/-- Some line for a process with the given name and start time. -/
def StatLine.sample (comm : ByteArray) (starttime : ℕ) : StatLine where
  pid := 1000
  comm := comm
  state := 'S'
  ppidToItrealvalue := List.replicate 18 0
  starttime := starttime
  vsizeToExitCode := List.replicate 30 0
  state_ne_space := by decide
  length_ppidToItrealvalue := rfl
  length_vsizeToExitCode := rfl

/-- Behind a space the start time is not read : lines that differ only there give one text. -/
theorem StatLine.not_startTime_sample_eq {comm : Text} (hspace : ' ' ∈ comm) :
    ¬ ∀ n, startTime (sample comm.utf8Encode n).bytes = some (decimal n) := by
  intro h
  have heq : startTime (sample comm.utf8Encode 0).bytes =
      startTime (sample comm.utf8Encode 1).bytes := by
    rw [startTime_eq_of_space _ rfl hspace, startTime_eq_of_space _ rfl hspace]
    rfl
  rw [h 0, h 1, Option.some.injEq] at heq
  exact Nat.zero_ne_one (decimal_injective heq)

/-- The mapping names identify the processes exactly when the processes are named by text
without a space. -/
theorem namesProcesses_iff (names : Set ByteArray) :
    NamesProcesses names ↔
      ∀ comm ∈ names, ∃ text : Text, comm = text.utf8Encode ∧ ' ' ∉ text := by
  constructor
  · intro h comm hcomm
    have hsample : ∀ n, startTime (StatLine.sample comm n).bytes = some (decimal n) :=
      fun n => h.startTime_eq (StatLine.sample comm n) hcomm
    have hvalid : comm.IsValidUTF8 := by
      obtain ⟨t, ht⟩ : ∃ t, readToString (StatLine.sample comm 0).bytes = some t := by
        rw [← Option.ne_none_iff_exists']
        intro hnone
        simpa [startTime, hnone] using hsample 0
      exact StatLine.isValidUTF8_comm _ ht
    obtain ⟨text, rfl⟩ := hvalid
    exact ⟨text, rfl, fun hspace => StatLine.not_startTime_sample_eq hspace hsample⟩
  · intro h
    have hstart : ∀ s : StatLine, s.comm ∈ names →
        startTime s.bytes = some (decimal s.starttime) := by
      intro s hs
      obtain ⟨text, htext, hspace⟩ := h s.comm hs
      exact s.startTime_eq htext hspace
    refine ⟨hstart, ?_, ?_⟩
    · intro s s' hs hs' hpid htime
      have hname : ∃ name, mmapBuilderName s.pid s.bytes = some name := by
        simp [mmapBuilderName, hstart s hs]
      obtain ⟨name, hname⟩ := hname
      refine ⟨name, hname, ?_⟩
      rw [← hname, hpid, mmapBuilderName_eq_iff, hstart s hs, hstart s' hs', htime]
    · intro s s' hs hs' hpid htime heq
      rw [hpid, mmapBuilderName_eq_iff, hstart s hs, hstart s' hs'] at heq
      exact htime (decimal_injective (Option.some.inj heq))

/-- The names of `tmux` servers have a space. -/
theorem not_namesProcesses_tmuxServer :
    ¬ NamesProcesses {(String.ofList "tmux: server".toList).toUTF8} := by
  intro h
  have hsample : ∀ n, startTime (StatLine.sample "tmux: server".toList.utf8Encode n).bytes =
      some (decimal n) := by
    intro n
    refine h.startTime_eq (StatLine.sample _ n) ?_
    rw [String.toUTF8_eq_toByteArray, String.toByteArray_ofList]
    rfl
  exact StatLine.not_startTime_sample_eq (by decide) hsample

end Diversion
