import Osrm.Microtar

/-!
`checkMTarError` and `FileReader::List` of `storage/tar.hpp`. The listing goes on after every error but that of a null
record; only behind the header of a regular file does it look at the record again and throw.
-/
namespace Osrm.TarListing
open List Function
open Microtar

inductive ErrorCode
  | FileOpenError | FileReadError | FileWriteError | FileIOError | UnexpectedEndOfFile
  deriving DecidableEq, Repr

inductive Exception
  | RuntimeError (message : String) (code : ErrorCode)
  | exception (message : String)
  deriving DecidableEq, Repr

def mtar_strerror (err : ℤ) : String :=
  if err = MTAR_ESUCCESS then "success"
  else if err = MTAR_EFAILURE then "failure"
  else if err = MTAR_EOPENFAIL then "could not open"
  else if err = MTAR_EREADFAIL then "could not read"
  else if err = MTAR_EWRITEFAIL then "could not write"
  else if err = MTAR_ESEEKFAIL then "could not seek"
  else if err = MTAR_EBADCHKSUM then "bad checksum"
  else if err = MTAR_ENULLRECORD then "null record"
  else if err = MTAR_ENOTFOUND then "file not found"
  else "unknown error"

def checkMTarError (error_code : ℤ) (filepath name : String) : Except Exception Unit :=
  let message := filepath ++ " : " ++ name
  if error_code = MTAR_ESUCCESS then .ok ()
  else if error_code = MTAR_EFAILURE then .error (.RuntimeError message .FileIOError)
  else if error_code = MTAR_EOPENFAIL then .error (.RuntimeError message .FileOpenError)
  else if error_code = MTAR_EREADFAIL then .error (.RuntimeError message .FileReadError)
  else if error_code = MTAR_EWRITEFAIL then .error (.RuntimeError message .FileWriteError)
  else if error_code = MTAR_ESEEKFAIL then .error (.RuntimeError message .FileIOError)
  else if error_code = MTAR_EBADCHKSUM then .error (.RuntimeError message .FileIOError)
  else if error_code = MTAR_ENULLRECORD then .error (.RuntimeError message .UnexpectedEndOfFile)
  else if error_code = MTAR_ENOTFOUND then .error (.RuntimeError message .FileIOError)
  else .error (.exception (message ++ ":" ++ mtar_strerror error_code))

structure FileEntry where
  name : List UInt8
  size : ℕ
  offset : ℕ
  deriving DecidableEq, Repr

section Listing
variable (file : File) (path : String)

def nameOf (header : Header) : String := String.ofList (header.name.map fun c => Char.ofNat c.toNat)

/-- What the loop does with a regular file. -/
def listRegular (tar : Tar) (header : Header) : Except Exception (FileEntry × Tar) := do
  let (ret,tar) := mtar_read_data file tar 0
  checkMTarError ret path (nameOf header)
  let offset := tar.pos
  let tar := { tar with remaining_data := 0 }
  let (ret,tar) := mtar_seek file tar tar.last_header
  checkMTarError ret path (nameOf header)
  return (⟨header.name,header.size,offset⟩,tar)

inductive Round
  | done (result : Except Exception (List FileEntry))
  | next (tar : Tar) (header : Header) (out : List FileEntry)

def round (tar : Tar) (header : Header) (out : List FileEntry) : Round :=
  let (err,header,tar) := mtar_read_header file tar header
  if err = MTAR_ENULLRECORD then .done (.ok out)
  else if header.type = MTAR_TREG then
    match listRegular file path tar header with
    | .error e => .done (.error e)
    | .ok (entry,tar) => .next (mtar_next file tar).2 header (out ++ [entry])
  else .next (mtar_next file tar).2 header out

/-- `FileReader::List` for at most so many rounds: the entries or an exception, if it has ended by then. -/
def list : ℕ → Tar → Header → List FileEntry → Option (Except Exception (List FileEntry))
  | 0, _, _, _ => none
  | fuel + 1, tar, header, out =>
    match round file path tar header out with
    | .done result => some result
    | .next tar header out => list fuel tar header out

end Listing

section Rounds
variable {file : File} {path : String} {tar : Tar} {header : Header} {out : List FileEntry} {p : ℕ}

private theorem checkMTarError_error {error_code : ℤ} (error : error_code ≠ MTAR_ESUCCESS) (filepath name : String) :
    ∃ e, checkMTarError error_code filepath name = .error e := by
  unfold checkMTarError
  rw [if_neg error]
  split_ifs <;> exact ⟨_,rfl⟩

def tried (file : File) (place : ℕ × Header) : Header :=
  if Readable file place.1 then loaded file place.1 place.2 else place.2
def follow (file : File) (place : ℕ × Header) : ℕ × Header := (nextPlace file place.1,tried file place)
def Advances (file : File) (place : ℕ × Header) : Prop :=
  Readable file place.1 ∧ codeAt file place.1 = MTAR_ESUCCESS ∧
    ((tried file place).type = MTAR_TREG → file.seekable ((place.1 + RECORD) % 2 ^ 64) = true)

instance (file : File) (place : ℕ × Header) : Decidable (Advances file place) := inferInstanceAs (Decidable (_ ∧ _ ∧ (_ → _)))

def Null (file : File) (place : ℕ × Header) : Prop := Readable file place.1 ∧ codeAt file place.1 = MTAR_ENULLRECORD

instance (file : File) (place : ℕ × Header) : Decidable (Null file place) := inferInstanceAs (Decidable (_ ∧ _))

/-- There is a null record, or no way on while the header is that of a regular file. -/
def Ends (file : File) (place : ℕ × Header) : Prop :=
  Null file place ∨ ((tried file place).type = MTAR_TREG ∧ ¬ Advances file place)

instance (file : File) (place : ℕ × Header) : Decidable (Ends file place) := inferInstanceAs (Decidable (_ ∨ (_ ∧ ¬ _)))

def EndsAfter (file : File) (place : ℕ × Header) (k : ℕ) : Prop :=
  (∀ j < k, Advances file ((follow file)^[j] place)) ∧ Ends file ((follow file)^[k] place)

instance (file : File) (place : ℕ × Header) (k : ℕ) : Decidable (EndsAfter file place k) := inferInstanceAs (Decidable (_ ∧ _))

def entryAt (file : File) (place : ℕ × Header) : Option FileEntry :=
  if (tried file place).type = MTAR_TREG then
    some ⟨(tried file place).name,(tried file place).size,dataPlace file place.1⟩
  else none

def entries (file : File) (place : ℕ × Header) (k : ℕ) : List FileEntry :=
  (List.range k).filterMap fun j => entryAt file ((follow file)^[j] place)
/-- What is listed at the end: all the entries in front of a null record, or there was an exception. -/
def Listed (file : File) (place : ℕ × Header) (out : List FileEntry) (result : Except Exception (List FileEntry)) : Prop :=
  ∃ k, EndsAfter file place k ∧
    if Null file ((follow file)^[k] place) then result = .ok (out ++ entries file place k) else ∃ e, result = .error e

/-- There is no way on, and the header is not that of a regular file. -/
def Stuck (file : File) (tar : Tar) (header : Header) : Prop :=
  (header.type ≠ MTAR_TREG ∧ tar.remaining_data = 0 ∧ Blocked file tar) ∨
    ∃ p, At file tar p ∧ Readable file p ∧ codeAt file p ≠ MTAR_ESUCCESS ∧ codeAt file p ≠ MTAR_ENULLRECORD ∧
      (loaded file p header).type ≠ MTAR_TREG

private theorem endsAfter_succ {place : ℕ × Header} {k : ℕ} :
    EndsAfter file place (k + 1) ↔ Advances file place ∧ EndsAfter file (follow file place) k := by
  simp only [EndsAfter,Nat.forall_lt_succ_left,iterate_zero,id_eq,iterate_succ_apply,and_assoc]

private theorem entries_succ (place : ℕ × Header) (k : ℕ) :
    entries file place (k + 1) = (entryAt file place).toList ++ entries file (follow file place) k := by
  have next : (fun j => entryAt file ((follow file)^[j] place)) ∘ Nat.succ = fun j => entryAt file ((follow file)^[j] (follow file place)) := by
    funext j
    simp only [comp_apply,iterate_succ_apply]
  simp only [entries,range_succ_eq_map,filterMap_cons,filterMap_map,next,iterate_zero,id_eq]
  cases entryAt file place with
  | none => rfl
  | some entry => rfl

private theorem stuck_at (stands : At file tar p) (noEnd : ¬ Ends file (p,header)) (noWay : ¬ Advances file (p,header)) :
    Stuck file tar header := by
  have other : (tried file (p,header)).type ≠ MTAR_TREG := fun regular => noEnd (.inr ⟨regular,noWay⟩)
  by_cases readable : Readable file p
  · have notNull : codeAt file p ≠ MTAR_ENULLRECORD := fun null => noEnd (.inl ⟨readable,null⟩)
    have wrong : codeAt file p ≠ MTAR_ESUCCESS := fun correct => noWay ⟨readable,correct,fun regular => absurd regular other⟩
    rw [tried,if_pos readable] at other
    exact .inr ⟨p,stands,readable,wrong,notNull,other⟩
  · rw [tried,if_neg readable] at other
    exact .inl ⟨other,stands.remaining_data,stands.blocked readable⟩

private theorem listRegular_error {err : ℤ} (read : (mtar_read_data file tar 0).1 = err) (error : err ≠ MTAR_ESUCCESS) :
    ∃ e, listRegular file path tar header = .error e := by
  obtain ⟨e,thrown⟩ := checkMTarError_error error path (nameOf header)
  exact ⟨e,by simp [listRegular,read,thrown,bind,Except.bind]⟩

private theorem listRegular_wrong (stands : At file tar p) (readable : Readable file p) (wrong : codeAt file p ≠ MTAR_ESUCCESS) :
    ∃ e, listRegular file path tar header = .error e :=
  listRegular_error (congrArg Prod.fst (mtar_read_data_error (stands.read_header readable file.header) stands.remaining_data wrong)) wrong

private theorem listRegular_blocked (blocked : Blocked file tar) (none : tar.remaining_data = 0) :
    ∃ e, listRegular file path tar header = .error e := by
  obtain ⟨err,tar',read,error,-⟩ := blocked.read_header file.header
  exact listRegular_error (congrArg Prod.fst (mtar_read_data_error read none error)) error

private theorem listRegular_ok (path : String) (header : Header) (stands : At file tar p) (readable : Readable file p)
    (correct : codeAt file p = MTAR_ESUCCESS) (goes : file.seekable ((p + RECORD) % 2 ^ 64) = true) :
    ∃ tar', listRegular file path tar header = .ok (⟨header.name,header.size,dataPlace file p⟩,tar') ∧ At file tar' p := by
  obtain ⟨tar',read,last,offset⟩ := stands.read_data readable correct goes
  refine ⟨{ tar' with stream := p, pos := p, remaining_data := 0 },?_,⟨rfl,rfl,fun _ => rfl⟩⟩
  simp [listRegular,read,checkMTarError,bind,Except.bind,mtar_seek,last,offset,readable.2,pure,Except.pure]

private theorem at_record (p : ℕ) : At file ⟨p,p,0,p⟩ p := ⟨rfl,rfl,fun _ => rfl⟩

private theorem round_null (stands : At file tar p) (null : Null file (p,header)) : round file path tar header out = .done (.ok out) := by
  rw [round,stands.read_header null.1]
  exact if_pos null.2

private theorem round_throws (path : String) (out : List FileEntry) (stands : At file tar p) (other : ¬ Null file (p,header))
    (regular : (tried file (p,header)).type = MTAR_TREG) (noWay : ¬ Advances file (p,header)) : ∃ e, round file path tar header out = .done (.error e) := by
  by_cases readable : Readable file p
  · have notNull : codeAt file p ≠ MTAR_ENULLRECORD := fun null => other ⟨readable,null⟩
    rw [tried,if_pos readable] at regular
    have thrown : ∃ e, listRegular file path ⟨p,p,0,p⟩ (loaded file p header) = .error e := by
      by_cases correct : codeAt file p = MTAR_ESUCCESS
      · have refuses : file.seekable ((p + RECORD) % 2 ^ 64) = false :=
          Bool.eq_false_iff.2 fun goes => noWay ⟨readable,correct,fun _ => goes⟩
        exact listRegular_error ((at_record p).read_data_refused readable correct refuses 0) (by decide)
      · exact listRegular_wrong (at_record p) readable correct
    obtain ⟨e,thrown⟩ := thrown
    refine ⟨e,?_⟩
    rw [round,stands.read_header readable]
    simp only [notNull,if_false,regular,if_true,thrown]
  · obtain ⟨err,tar',read,-,notNull,blocked,left⟩ := (stands.blocked readable).read_header header
    rw [tried,if_neg readable] at regular
    have regular : header.type = MTAR_TREG := regular
    have thrown : ∃ e, listRegular file path tar' header = .error e := listRegular_blocked blocked (left.trans stands.remaining_data)
    obtain ⟨e,thrown⟩ := thrown
    refine ⟨e,?_⟩
    rw [round,read]
    simp only [notNull,if_false,regular,if_true,thrown]

private theorem round_advances (path : String) (out : List FileEntry) (stands : At file tar p) (advances : Advances file (p,header)) :
    ∃ tar', round file path tar header out = .next tar' (tried file (p,header)) (out ++ (entryAt file (p,header)).toList) ∧
      At file tar' (nextPlace file p) := by
  obtain ⟨readable,correct,reaches⟩ := advances
  have notNull : ¬ MTAR_ESUCCESS = MTAR_ENULLRECORD := by decide
  rw [entryAt]
  rw [tried,if_pos readable] at reaches ⊢
  rw [round,stands.read_header readable]
  simp only [correct,notNull,if_false]
  by_cases regular : (loaded file p header).type = MTAR_TREG
  · obtain ⟨tar',listed,stands'⟩ := listRegular_ok path (loaded file p header) (at_record p) readable correct (reaches regular)
    refine ⟨(mtar_next file tar').2,?_,stands'.next readable correct⟩
    simp only [regular,if_true,listed,Option.toList]
  · refine ⟨(mtar_next file ⟨p,p,0,p⟩).2,?_,(at_record p).next readable correct⟩
    simp only [regular,if_false,Option.toList,append_nil]

private theorem Stuck.round (path : String) (out : List FileEntry) (stuck : Stuck file tar header) :
    ∃ tar' header' out', round file path tar header out = .next tar' header' out' ∧ Stuck file tar' header' := by
  rcases stuck with ⟨other,left,blocked⟩ | ⟨p,stands,readable,wrong,notNull,other⟩
  · obtain ⟨err,tar₁,read,-,notNull,blocked₁,left₁⟩ := blocked.read_header header
    obtain ⟨err₂,tar₂,read₂,error,-,blocked₂,left₂⟩ := blocked₁.read_header file.header
    refine ⟨tar₂,header,out,?_,.inl ⟨other,by rw [left₂,left₁,left],blocked₂⟩⟩
    rw [TarListing.round,read]
    simp only [notNull,if_false,other,mtar_next_error read₂ error]
  · have next := mtar_next_error ((at_record p).read_header readable file.header) wrong
    refine ⟨⟨p,p,0,p⟩,loaded file p header,out,?_,.inr ⟨p,at_record p,readable,wrong,notNull,?_⟩⟩
    · rw [TarListing.round,stands.read_header readable]
      simp only [notNull,if_false,other,next]
    · rw [loaded_type]
      exact other

private theorem Stuck.never (stuck : Stuck file tar header) (fuel : ℕ) : list file path fuel tar header out = none := by
  induction fuel generalizing tar header out with
  | zero => rfl
  | succ fuel ih =>
    obtain ⟨tar',header',out',rounds,stuck'⟩ := stuck.round path out
    rw [list,rounds]
    exact ih stuck'

private theorem list_total {k : ℕ} (path : String) (out : List FileEntry) (stands : At file tar p)
    (endsAfter : EndsAfter file (p,header) k) : ∃ fuel result, list file path fuel tar header out = some result := by
  induction k generalizing tar header p out with
  | zero =>
    obtain ⟨-,ends⟩ := endsAfter
    refine ⟨1,?_⟩
    by_cases null : Null file (p,header)
    · exact ⟨_,by rw [list,round_null stands null]⟩
    · rcases ends with null' | ⟨regular,noWay⟩
      · exact absurd null' null
      · obtain ⟨e,rounds⟩ := round_throws path out stands null regular noWay
        exact ⟨_,by rw [list,rounds]⟩
  | succ k ih =>
    obtain ⟨advances,later⟩ := endsAfter_succ.1 endsAfter
    obtain ⟨tar',rounds,stands'⟩ := round_advances path out stands advances
    obtain ⟨fuel,result,listed⟩ := ih _ stands' later
    exact ⟨fuel + 1,result,by rw [list,rounds]; exact listed⟩

private theorem list_listed {fuel : ℕ} {result : Except Exception (List FileEntry)} (stands : At file tar p)
    (listed : list file path fuel tar header out = some result) : Listed file (p,header) out result := by
  induction fuel generalizing tar header p out with
  | zero => cases listed
  | succ fuel ih =>
    by_cases null : Null file (p,header)
    · rw [list,round_null stands null] at listed
      cases listed
      refine ⟨0,⟨fun _ none => absurd none (Nat.not_lt_zero _),.inl null⟩,?_⟩
      rw [iterate_zero_apply,if_pos null]
      simp [entries]
    · by_cases advances : Advances file (p,header)
      · obtain ⟨tar',rounds,stands'⟩ := round_advances path out stands advances
        rw [list,rounds] at listed
        obtain ⟨k,later,outcome⟩ := ih stands' listed
        refine ⟨k + 1,endsAfter_succ.2 ⟨advances,later⟩,?_⟩
        rw [entries_succ,← append_assoc]
        exact outcome
      · by_cases regular : (tried file (p,header)).type = MTAR_TREG
        · obtain ⟨e,rounds⟩ := round_throws path out stands null regular advances
          rw [list,rounds] at listed
          cases listed
          refine ⟨0,⟨fun _ none => absurd none (Nat.not_lt_zero _),.inr ⟨regular,advances⟩⟩,?_⟩
          rw [iterate_zero_apply,if_neg null]
          exact ⟨e,rfl⟩
        · have stuck : Stuck file tar header := stuck_at stands (fun ends => ends.elim null fun ends => regular ends.1) advances
          rw [stuck.never] at listed
          cases listed

/-- The listing ends, with all the entries or by throwing, just where the records come to an end. -/
theorem list_ends_iff (stands : At file tar p) :
    (∃ fuel result, list file path fuel tar header [] = some result ∧ Listed file (p,header) [] result) ↔
      ∃ k, EndsAfter file (p,header) k := by
  constructor
  · rintro ⟨-,-,-,k,endsAfter,-⟩
    exact ⟨k,endsAfter⟩
  · rintro ⟨k,endsAfter⟩
    obtain ⟨fuel,result,listed⟩ := list_total path [] stands endsAfter
    exact ⟨fuel,result,listed,list_listed stands listed⟩

/-- A record with a name of one character, size 0 and the digits of its checksum. -/
def shortRecord (name type : UInt8) (chksum : List UInt8) : List UInt8 :=
  name :: replicate 123 0 ++ 48 :: replicate 23 0 ++ chksum ++ replicate (8 - chksum.length) 0 ++
    type :: replicate 355 0
def archive : File := ⟨shortRecord 97 48 [55,48,49] ++ replicate 512 0,(· < 2 ^ 63),0,⟨0,[],0⟩⟩
def truncated : File := ⟨shortRecord 100 53 [55,49,49],(· < 2 ^ 63),0,⟨0,[],0⟩⟩

theorem list_ends_archive : ∃ fuel result, list archive "a" fuel (mtar_open archive).2 archive.header [] = some result ∧
    Listed archive (0,archive.header) [] result := by
  have opened : (mtar_open archive).1 = MTAR_ESUCCESS := by decide +kernel
  have endsAfter : EndsAfter archive (0,archive.header) 1 := by decide +kernel
  exact (list_ends_iff (mtar_open_at opened)).2 ⟨1,endsAfter⟩

/-- It is opened, but listing it never ends. -/
theorem list_truncated_never : (mtar_open truncated).1 = MTAR_ESUCCESS ∧
    ¬ ∃ fuel result, list truncated "a" fuel (mtar_open truncated).2 truncated.header [] = some result := by
  have opened : (mtar_open truncated).1 = MTAR_ESUCCESS := by decide +kernel
  have first : ¬ Ends truncated (0,truncated.header) := by decide +kernel
  have second : ¬ Ends truncated (follow truncated (0,truncated.header)) := by decide +kernel
  have noWay : ¬ Advances truncated (follow truncated (0,truncated.header)) := by decide +kernel
  refine ⟨opened,?_⟩
  rintro ⟨fuel,result,listed⟩
  obtain ⟨k,endsAfter,-⟩ := list_listed (mtar_open_at opened) listed
  cases k with
  | zero => exact first endsAfter.2
  | succ k =>
    obtain ⟨-,later⟩ := endsAfter_succ.1 endsAfter
    cases k with
    | zero => exact second later.2
    | succ k => exact noWay (endsAfter_succ.1 later).1

end Rounds

end Osrm.TarListing
