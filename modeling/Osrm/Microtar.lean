import Mathlib.Tactic

/-!
`third_party/microtar`, as far as archives are read. A reader keeps its own position beside that of the stream, which
moves also when the stream ends too early or refuses the offset. Positions and sizes have 64 bits.
-/
namespace Osrm.Microtar
open List

def MTAR_ESUCCESS : ℤ := 0
def MTAR_EFAILURE : ℤ := -1
def MTAR_EOPENFAIL : ℤ := -2
def MTAR_EREADFAIL : ℤ := -3
def MTAR_EWRITEFAIL : ℤ := -4
def MTAR_ESEEKFAIL : ℤ := -5
def MTAR_EBADCHKSUM : ℤ := -6
def MTAR_ENULLRECORD : ℤ := -7
def MTAR_ENOTFOUND : ℤ := -8
def MTAR_TREG : ℕ := 48

/-- `mtar_header_t`, without the fields that nobody asks for. -/
structure Header where
  type : ℕ
  name : List UInt8
  size : ℕ
  deriving DecidableEq, Repr

/-- A stream and its surroundings: the file, the offsets that `fseek` accepts and variables before they are set. -/
structure File where
  content : List UInt8
  seekable : ℕ → Bool
  chksum : ℕ
  header : Header

/-- `mtar_t` with the position of its stream. -/
structure Tar where
  stream : ℕ
  pos : ℕ
  remaining_data : ℕ
  last_header : ℕ
  deriving DecidableEq, Repr

def RECORD : ℕ := 512

def isSpace (c : UInt8) : Bool := c == 32 || (9 ≤ c && c ≤ 13)
def isOctal (c : UInt8) : Bool := 48 ≤ c && c ≤ 55

/-- `sscanf` with `%o`, of at most so many characters: the number, or nothing when there is none. -/
def scanOctal (width : ℕ) (text : List UInt8) : Option ℤ :=
  let field := (text.dropWhile isSpace).take width
  let (sign,field) : ℤ × List UInt8 := match field with
    | 45 :: rest => (-1,rest)
    | 43 :: rest => (1,rest)
    | _ => (1,field)
  match field.takeWhile isOctal with
  | [] => none
  | digits => some (sign * (digits.foldl (fun n c => 8 * n + (c.toNat - 48)) 0 : ℕ))

def sumBytes (bytes : List UInt8) : ℕ := (bytes.map UInt8.toNat).sum
def checksum (rh : List UInt8) : ℕ := 256 + sumBytes (rh.take 148) + sumBytes (rh.drop 156)
/-- The loop over the other bytes of a size that is not written in octal digits, and whether it fails. -/
def sizeBytes (size : ℕ) : List UInt8 → ℕ × Bool
  | [] => (size,false)
  | b :: rest => if size ≥ 2 ^ 56 then (size,true) else sizeBytes ((size <<< 8) + b.toNat) rest

/-- The size, which is at 124, and whether it could not be loaded. -/
def loadSize (size : ℕ) (rh : List UInt8) : ℕ × Bool :=
  let first := (rh.getD 124 0).toNat
  if first &&& 128 = 0 then (((scanOctal 12 (rh.drop 124)).map fun n => (n % 2 ^ 64).toNat).getD size,false)
  else sizeBytes ((first &&& 127) ||| (if first &&& 64 ≠ 0 then 128 else 0)) ((rh.drop 125).take 11)

/-- The error and the header afterwards. -/
def raw_to_header (file : File) (h : Header) (rh : List UInt8) : ℤ × Header :=
  if rh.getD 148 0 = 0 then (MTAR_ENULLRECORD,h)
  else if checksum rh ≠ ((scanOctal rh.length (rh.drop 148)).map fun n => (n % 2 ^ 32).toNat).getD file.chksum then
    (MTAR_EBADCHKSUM,h)
  else
    let (size,failed) := loadSize h.size rh
    (if failed then MTAR_EFAILURE else MTAR_ESUCCESS,⟨(rh.getD 156 0).toNat,rh.takeWhile (· ≠ 0),size⟩)

section Reading
variable (file : File)

/-- The error, what was read, and the reader afterwards. -/
def tread (tar : Tar) (size : ℕ) : ℤ × List UInt8 × Tar :=
  let data := (file.content.drop tar.stream).take size
  (if data.length = size then MTAR_ESUCCESS else MTAR_EREADFAIL,data,
    { tar with stream := tar.stream + data.length, pos := (tar.pos + size) % 2 ^ 64 })

def mtar_seek (tar : Tar) (pos : ℕ) : ℤ × Tar :=
  if file.seekable pos then (MTAR_ESUCCESS,{ tar with stream := pos, pos }) else (MTAR_ESEEKFAIL,{ tar with pos })

def mtar_read_header (tar : Tar) (h : Header) : ℤ × Header × Tar :=
  let tar := { tar with last_header := tar.pos }
  let (err,rh,tar) := tread file tar RECORD
  if err ≠ MTAR_ESUCCESS then (err,h,tar)
  else
    let (err,tar) := mtar_seek file tar tar.last_header
    if err ≠ MTAR_ESUCCESS then (err,h,tar)
    else
      let (err,h) := raw_to_header file h rh
      (err,h,tar)

def mtar_open : ℤ × Tar :=
  let (err,_,tar) := mtar_read_header file ⟨0,0,0,0⟩ file.header
  (err,tar)

/-- The first read of the data of a record. -/
def beginData (tar : Tar) : ℤ × Tar :=
  let (err,h,tar) := mtar_read_header file tar file.header
  if err ≠ MTAR_ESUCCESS then (err,tar)
  else
    let (err,tar) := mtar_seek file tar ((tar.pos + RECORD) % 2 ^ 64)
    if err ≠ MTAR_ESUCCESS then (err,tar) else (MTAR_ESUCCESS,{ tar with remaining_data := h.size })

/-- The data themselves are left out. -/
def mtar_read_data (tar : Tar) (size : ℕ) : ℤ × Tar :=
  let (err,tar) := if tar.remaining_data = 0 then beginData file tar else (MTAR_ESUCCESS,tar)
  if err ≠ MTAR_ESUCCESS then (err,tar)
  else
    let (err,_,tar) := tread file tar size
    if err ≠ MTAR_ESUCCESS then (err,tar)
    else
      let tar := { tar with remaining_data := (tar.remaining_data + 2 ^ 64 - size) % 2 ^ 64 }
      if tar.remaining_data = 0 then mtar_seek file tar tar.last_header else (MTAR_ESUCCESS,tar)

def round_up (n incr : ℕ) : ℕ := (n + (incr - n % incr) % incr) % 2 ^ 64
def mtar_next (tar : Tar) : ℤ × Tar :=
  let (err,h,tar) := mtar_read_header file tar file.header
  if err ≠ MTAR_ESUCCESS then (err,tar)
  else mtar_seek file tar ((tar.pos + (round_up h.size RECORD + RECORD)) % 2 ^ 64)

end Reading

/-! ### Where a reader stands -/

section Standing
variable {file : File} {tar : Tar} {h h' : Header} {p : ℕ}

/-- A reader is at a place, with nothing left to read; only if the stream does not go there, it may be elsewhere. -/
structure At (file : File) (tar : Tar) (p : ℕ) : Prop where
  pos : tar.pos = p
  remaining_data : tar.remaining_data = 0
  stream : file.seekable p = true → tar.stream = p

def Readable (file : File) (p : ℕ) : Prop := p + RECORD ≤ file.content.length ∧ file.seekable p = true

instance (file : File) (p : ℕ) : Decidable (Readable file p) := inferInstanceAs (Decidable (_ ∧ _))

def record (file : File) (p : ℕ) : List UInt8 := (file.content.drop p).take RECORD
def codeAt (file : File) (p : ℕ) : ℤ := (raw_to_header file file.header (record file p)).1
def loaded (file : File) (p : ℕ) (h : Header) : Header := (raw_to_header file h (record file p)).2
def Blocked (file : File) (tar : Tar) : Prop := file.content.length < tar.stream + RECORD ∨ file.seekable tar.pos = false

private theorem raw_to_header_code (h h' : Header) (rh : List UInt8) : (raw_to_header file h rh).1 = (raw_to_header file h' rh).1 := by
  have failed : (loadSize h.size rh).2 = (loadSize h'.size rh).2 := by
    unfold loadSize
    simp only
    split <;> rfl
  unfold raw_to_header
  split
  · rfl
  · split
    · rfl
    · simp only [failed]

theorem loaded_type (p : ℕ) (h : Header) : (loaded file p (loaded file p h)).type = (loaded file p h).type := by
  unfold loaded raw_to_header
  split
  · rfl
  · split
    · rfl
    · rfl

private theorem length_record (readable : Readable file p) : (record file p).length = RECORD := by
  have room := readable.1
  simp [record]
  omega

@[simp] theorem readfail_ne : MTAR_EREADFAIL ≠ MTAR_ESUCCESS := by decide
@[simp] theorem seekfail_ne : MTAR_ESEEKFAIL ≠ MTAR_ESUCCESS := by decide

theorem At.read_header (stands : At file tar p) (readable : Readable file p) (h : Header) :
    mtar_read_header file tar h = (codeAt file p,loaded file p h,⟨p,p,0,p⟩) := by
  have whole := length_record readable
  rw [record] at whole
  simp only [mtar_read_header,tread,stands.pos,stands.stream readable.2,stands.remaining_data,whole,mtar_seek,readable.2,if_true,ne_eq,
    not_true_eq_false,if_false]
  rw [codeAt,raw_to_header_code file.header h,loaded,record]

theorem Blocked.read_header (blocked : Blocked file tar) (h : Header) :
    ∃ err tar', mtar_read_header file tar h = (err,h,tar') ∧ err ≠ MTAR_ESUCCESS ∧ err ≠ MTAR_ENULLRECORD ∧
      Blocked file tar' ∧ tar'.remaining_data = tar.remaining_data := by
  by_cases whole : ((file.content.drop tar.stream).take RECORD).length = RECORD
  · have refuses : file.seekable tar.pos = false := by
      rcases blocked with ends | refuses
      · rw [length_take,length_drop] at whole
        have some : 0 < RECORD := by decide
        omega
      · exact refuses
    refine ⟨MTAR_ESEEKFAIL,{ tar with stream := tar.stream + RECORD, last_header := tar.pos },?_,seekfail_ne,by decide,
      .inr refuses,rfl⟩
    simp [mtar_read_header,tread,mtar_seek,whole,refuses]
  · refine ⟨MTAR_EREADFAIL,⟨tar.stream + ((file.content.drop tar.stream).take RECORD).length,(tar.pos + RECORD) % 2 ^ 64,
      tar.remaining_data,tar.pos⟩,?_,readfail_ne,by decide,.inl ?_,rfl⟩
    · simp only [mtar_read_header,tread,whole,if_false,ne_eq,readfail_ne,not_false_eq_true,if_true]
    · rw [length_take,length_drop] at whole
      simp only [length_take,length_drop]
      omega

theorem At.blocked (stands : At file tar p) (not : ¬ Readable file p) : Blocked file tar := by
  cases goes : file.seekable p with
  | true =>
    refine .inl (Nat.lt_of_not_le fun room => not ⟨?_,goes⟩)
    rw [← stands.stream goes]
    exact room
  | false => exact .inr (stands.pos ▸ goes)

def nextPlace (file : File) (p : ℕ) : ℕ := (p + (round_up (loaded file p file.header).size RECORD + RECORD)) % 2 ^ 64

theorem At.next (stands : At file tar p) (readable : Readable file p) (correct : codeAt file p = MTAR_ESUCCESS) :
    At file (mtar_next file tar).2 (nextPlace file p) := by
  have place : (p + (round_up (loaded file p file.header).size RECORD + RECORD)) % 2 ^ 64 = nextPlace file p := rfl
  rw [mtar_next,stands.read_header readable]
  simp only [correct,ne_eq,not_true_eq_false,if_false]
  rw [place,mtar_seek]
  generalize nextPlace file p = next
  cases goes : file.seekable next with
  | true => exact ⟨rfl,rfl,fun _ => rfl⟩
  | false => exact ⟨rfl,rfl,fun goes' => by rw [goes] at goes'; cases goes'⟩

theorem mtar_next_error {err : ℤ} {tar' : Tar} (read : mtar_read_header file tar file.header = (err,h,tar')) (error : err ≠ MTAR_ESUCCESS) :
    mtar_next file tar = (err,tar') := by
  simp only [mtar_next,read,error,ne_eq,not_false_eq_true,if_true]

theorem mtar_read_data_error {err : ℤ} {tar' : Tar} {size : ℕ} (read : mtar_read_header file tar file.header = (err,h,tar'))
    (none : tar.remaining_data = 0) (error : err ≠ MTAR_ESUCCESS) : mtar_read_data file tar size = (err,tar') := by
  simp only [mtar_read_data,none,if_true,beginData,read,error,ne_eq,not_false_eq_true]

theorem At.read_data_refused (stands : At file tar p) (readable : Readable file p) (correct : codeAt file p = MTAR_ESUCCESS)
    (refuses : file.seekable ((p + RECORD) % 2 ^ 64) = false) (size : ℕ) : (mtar_read_data file tar size).1 = MTAR_ESEEKFAIL := by
  have error : MTAR_ESEEKFAIL ≠ MTAR_ESUCCESS := by decide
  simp only [mtar_read_data,stands.remaining_data,if_true,beginData,stands.read_header readable,correct,ne_eq,not_true_eq_false,
    if_false,mtar_seek,refuses,Bool.false_eq_true,error,not_false_eq_true]

/-- Where the data of a record are said to be: a reader with nothing to read of them is back at the record. -/
def dataPlace (file : File) (p : ℕ) : ℕ := if (loaded file p file.header).size % 2 ^ 64 = 0 then p else (p + RECORD) % 2 ^ 64

theorem At.read_data (stands : At file tar p) (readable : Readable file p) (correct : codeAt file p = MTAR_ESUCCESS)
    (goes : file.seekable ((p + RECORD) % 2 ^ 64) = true) :
    ∃ tar', mtar_read_data file tar 0 = (MTAR_ESUCCESS,tar') ∧ tar'.last_header = p ∧ tar'.pos = dataPlace file p := by
  simp only [mtar_read_data,stands.remaining_data,if_true,beginData,stands.read_header readable,correct,ne_eq,not_true_eq_false,
    if_false,mtar_seek,goes,tread,take_zero,length_nil,readable.2,Nat.sub_zero,Nat.add_mod_right,dataPlace]
  split
  · exact ⟨_,rfl,rfl,rfl⟩
  · refine ⟨_,rfl,rfl,?_⟩
    simp only [add_zero,Nat.mod_mod]

theorem mtar_open_at (opened : (mtar_open file).1 = MTAR_ESUCCESS) : At file (mtar_open file).2 0 := by
  have start : At file ⟨0,0,0,0⟩ 0 := ⟨rfl,rfl,fun _ => rfl⟩
  by_cases readable : Readable file 0
  · rw [mtar_open,start.read_header readable]
    exact ⟨rfl,rfl,fun _ => rfl⟩
  · obtain ⟨err,tar',read,error,-⟩ := (start.blocked readable).read_header file.header
    rw [mtar_open,read] at opened
    exact absurd opened error

end Standing

end Osrm.Microtar
