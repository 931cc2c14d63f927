import Osrm.Reader

/-!
`server/request_parser.cpp`: a request is read character by character, in whatever pieces. A header is looked at when
the next line begins. Bytes are characters; those above 127 are the negative ones of the source.
-/
namespace Osrm.Server
open List
open Reader

inductive RequestStatus
  | valid
  | invalid
  | indeterminate
  deriving DecidableEq, Repr

inductive compression_type
  | no_compression
  | gzip_rfc1952
  | deflate_rfc1951
  deriving DecidableEq, Repr

inductive internal_state
  | method_start
  | method
  | uri_start
  | uri
  | http_version_h
  | http_version_t_1
  | http_version_t_2
  | http_version_p
  | http_version_slash
  | http_version_major_start
  | http_version_major
  | http_version_minor_start
  | http_version_minor
  | expecting_newline_1
  | header_line_start
  | header_lws
  | header_name
  | header_value
  | expecting_newline_2
  | expecting_newline_3
  deriving DecidableEq, Repr

/-- `http::request`, without the endpoint, which the connection sets. -/
structure request where
  uri : List Char
  referrer : List Char
  agent : List Char
  connection : List Char
  deriving DecidableEq, Repr

structure header where
  name : List Char
  value : List Char
  deriving DecidableEq, Repr

/-- `RequestParser`. -/
structure RequestParser where
  state : internal_state
  current_header : header
  selected_compression : compression_type
  deriving DecidableEq, Repr

def is_char (character : Char) : Bool := decide (character.toNat ≤ 127)
def is_CTL (character : Char) : Bool := decide (character.toNat ≤ 31) || character.toNat == 127
/-- The separators of the grammar; 34 is the quotation mark and 92 the backslash. -/
def is_special (character : Char) : Bool :=
  ['(',')','<','>','@',',',';',':',Char.ofNat 92,Char.ofNat 34,'/','[',']','?','=',Char.ofNat 123,Char.ofNat 125,' ','\t'].contains character
def is_digit (character : Char) : Bool := decide ('0'.toNat ≤ character.toNat) && decide (character.toNat ≤ '9'.toNat)
/-- `boost::iequals` -/
def iequals (left right : List Char) : Bool := left.map Char.toUpper == right.map Char.toUpper
/-- `boost::icontains` -/
def icontains (input test : List Char) : Bool := input.tails.any fun rest => (test.map Char.toUpper).isPrefixOf (rest.map Char.toUpper)

def Accept_Encoding : List Char := ['A','c','c','e','p','t','-','E','n','c','o','d','i','n','g']
def Referer : List Char := ['R','e','f','e','r','e','r']
def User_Agent : List Char := ['U','s','e','r','-','A','g','e','n','t']
def Connection : List Char := ['C','o','n','n','e','c','t','i','o','n']
def deflate : List Char := ['d','e','f','l','a','t','e']
def gzip : List Char := ['g','z','i','p']

/-- The compression that a header asks for, where gzip goes before deflate. -/
def noteCompression (current_header : header) (selected : compression_type) : compression_type :=
  if iequals current_header.name Accept_Encoding then
    let first := if icontains current_header.value deflate then .deflate_rfc1951 else selected
    if icontains current_header.value gzip then .gzip_rfc1952 else first
  else selected

/-- What the request takes from a header. -/
def noteHeader (current_request : request) (current_header : header) : request :=
  let referred := if iequals current_header.name Referer then {current_request with referrer := current_header.value} else current_request
  let agreed := if iequals current_header.name User_Agent then {referred with agent := current_header.value} else referred
  if iequals current_header.name Connection then {agreed with connection := current_header.value} else agreed

abbrev Machine := RequestParser × request
def goto (machine : Machine) (state : internal_state) : RequestStatus × Machine :=
  (.indeterminate,{machine.1 with state := state},machine.2)

/-- `RequestParser::consume` -/
def consume (machine : Machine) (input : Char) : RequestStatus × Machine :=
  let invalid : RequestStatus × Machine := (.invalid,machine)
  match machine.1.state with
  | .method_start => if !is_char input || is_CTL input || is_special input then invalid else goto machine .method
  | .method =>
    if input == ' ' then goto machine .uri
    else if !is_char input || is_CTL input || is_special input then invalid
    else (.indeterminate,machine)
  | .uri_start =>
    if is_CTL input then invalid
    else (.indeterminate,{machine.1 with state := .uri},{machine.2 with uri := machine.2.uri ++ [input]})
  | .uri =>
    if input == ' ' then goto machine .http_version_h
    else if is_CTL input then invalid
    else (.indeterminate,machine.1,{machine.2 with uri := machine.2.uri ++ [input]})
  | .http_version_h => if input == 'H' then goto machine .http_version_t_1 else invalid
  | .http_version_t_1 => if input == 'T' then goto machine .http_version_t_2 else invalid
  | .http_version_t_2 => if input == 'T' then goto machine .http_version_p else invalid
  | .http_version_p => if input == 'P' then goto machine .http_version_slash else invalid
  | .http_version_slash => if input == '/' then goto machine .http_version_major_start else invalid
  | .http_version_major_start => if is_digit input then goto machine .http_version_major else invalid
  | .http_version_major =>
    if input == '.' then goto machine .http_version_minor_start
    else if is_digit input then (.indeterminate,machine)
    else invalid
  | .http_version_minor_start => if is_digit input then goto machine .http_version_minor else invalid
  | .http_version_minor =>
    if input == '\r' then goto machine .expecting_newline_1
    else if is_digit input then (.indeterminate,machine)
    else invalid
  | .expecting_newline_1 => if input == '\n' then goto machine .header_line_start else invalid
  | .header_line_start =>
    let selected_compression := noteCompression machine.1.current_header machine.1.selected_compression
    let current_request := noteHeader machine.2 machine.1.current_header
    if input == '\r' then
      (.indeterminate,⟨.expecting_newline_3,machine.1.current_header,selected_compression⟩,current_request)
    else if !is_char input || is_CTL input || is_special input then
      (.invalid,⟨machine.1.state,machine.1.current_header,selected_compression⟩,current_request)
    else (.indeterminate,⟨.header_name,⟨[input],[]⟩,selected_compression⟩,current_request)
  | .header_lws =>
    if input == '\r' then goto machine .expecting_newline_2
    else if input == ' ' || input == '\t' then (.indeterminate,machine)
    else if is_CTL input then invalid
    else goto machine .header_value
  | .header_name =>
    if input == ':' then goto machine .header_value
    else if !is_char input || is_CTL input || is_special input then invalid
    else (.indeterminate,{machine.1 with current_header.name := machine.1.current_header.name ++ [input]},machine.2)
  | .header_value =>
    if input == ' ' then goto machine .header_value
    else if input == '\r' then goto machine .expecting_newline_2
    else if is_CTL input then invalid
    else (.indeterminate,{machine.1 with current_header.value := machine.1.current_header.value ++ [input]},machine.2)
  | .expecting_newline_2 => if input == '\n' then goto machine .header_line_start else invalid
  | .expecting_newline_3 => if input == '\n' then (.valid,machine) else invalid

/-- `RequestParser::parse`, of one piece, and the pieces that a connection reads until there is a result. -/
def parse (machine : Machine) (piece : List Char) : RequestStatus × Machine := run consume .indeterminate machine piece
def handle_read (machine : Machine) (pieces : List (List Char)) : RequestStatus × Machine := feed consume .indeterminate machine pieces
def start : Machine := (⟨.method_start,⟨[],[]⟩,.no_compression⟩,⟨[],[],[],[]⟩)

def is_token (character : Char) : Bool := is_char character && !is_CTL character && !is_special character
def is_printable (character : Char) : Bool := decide (32 ≤ character.toNat) && decide (character.toNat ≤ 126)

structure HeaderLine where
  name : List Char
  value : List Char
  some_name : name ≠ []
  token : ∀ c ∈ name, is_token c = true
  printable : ∀ c ∈ value, is_printable c = true

structure RequestText where
  method : List Char
  uri : List Char
  major : List Char
  minor : List Char
  headers : List HeaderLine
  some_method : method ≠ []
  token : ∀ c ∈ method, is_token c = true
  plain : ∀ c ∈ uri, c ≠ ' ' ∧ is_CTL c = false
  some_major : major ≠ []
  major_digits : ∀ c ∈ major, is_digit c = true
  some_minor : minor ≠ []
  minor_digits : ∀ c ∈ minor, is_digit c = true

def HeaderLine.render (line : HeaderLine) : List Char := line.name ++ ':' :: ' ' :: line.value ++ ['\r','\n']
def RequestText.render (text : RequestText) : List Char :=
  text.method ++ ' ' :: text.uri ++ [' ','H','T','T','P','/'] ++ text.major ++ '.' :: text.minor ++ ['\r','\n'] ++
    text.headers.flatMap HeaderLine.render ++ ['\r','\n']
def trim (value : List Char) : List Char := ((value.dropWhile (· == ' ')).reverse.dropWhile (· == ' ')).reverse
def RequestText.last (text : RequestText) (name : List Char) : List Char :=
  ((text.headers.filter fun line => iequals line.name name).getLast?.map fun line => trim line.value).getD []

section Characters
variable {c : Char}

private theorem token_iff : is_token c = true ↔ is_char c = true ∧ is_CTL c = false ∧ is_special c = false := by
  simp [is_token,and_assoc]
private theorem token_ne (token : is_token c = true) : c ≠ ' ' ∧ c ≠ ':' ∧ c ≠ '\r' := by
  refine ⟨?_,?_,?_⟩ <;> rintro rfl <;> revert token <;> decide
private theorem digit_ne (digit : is_digit c = true) : c ≠ '.' ∧ c ≠ '\r' := by
  refine ⟨?_,?_⟩ <;> rintro rfl <;> revert digit <;> decide

private theorem printable_plain (printable : is_printable c = true) : is_CTL c = false ∧ c ≠ '\r' := by
  constructor
  · simp only [is_printable,is_CTL,Bool.and_eq_true,decide_eq_true_eq,Bool.or_eq_false_iff,decide_eq_false_iff_not,
      beq_eq_false_iff_ne] at printable ⊢
    omega
  · rintro rfl
    revert printable
    decide

end Characters

section Reading
variable {current_header : header} {selected : compression_type} {current_request : request} {word : List Char}

abbrev ReadsTo (machine : Machine) (inputs : List Char) (next : Machine) : Prop := Reads consume .indeterminate machine inputs next

private theorem reads_word (state_of : List Char → Machine) (collected word : List Char)
    (each : ∀ collected, ∀ c ∈ word, consume (state_of collected) c = (.indeterminate,state_of (collected ++ [c]))) :
    ReadsTo (state_of collected) word (state_of (collected ++ word)) := by
  have all : ReadsTo (state_of collected) word (state_of (collected ++ word.filter fun _ => true)) :=
    Reads.collect state_of (fun _ => true) collected word each
  rw [filter_eq_self.mpr fun _ _ => rfl] at all
  exact all

private theorem reads_method (some_word : word ≠ []) (token : ∀ c ∈ word, is_token c = true) :
    ReadsTo (⟨.method_start,current_header,selected⟩,current_request) (word ++ [' '])
      (⟨.uri,current_header,selected⟩,current_request) := by
  obtain ⟨first,rest,rfl⟩ := exists_cons_of_ne_nil some_word
  have begins := token_iff.mp (token first mem_cons_self)
  have enter : consume (⟨.method_start,current_header,selected⟩,current_request) first =
      (.indeterminate,⟨.method,current_header,selected⟩,current_request) := by simp [consume,goto,begins]
  have loop : ReadsTo (⟨.method,current_header,selected⟩,current_request) rest (⟨.method,current_header,selected⟩,current_request) := by
    refine Reads.skip fun c member => ?_
    have later := token c (mem_cons_of_mem _ member)
    simp [consume,token_ne later,token_iff.mp later]
  exact (Reads.cons enter loop).append (Reads.single rfl)

private theorem reads_uri (plain : ∀ c ∈ word, c ≠ ' ' ∧ is_CTL c = false) :
    ReadsTo (⟨.uri,current_header,selected⟩,current_request) (word ++ [' ','H','T','T','P','/'])
      (⟨.http_version_major_start,current_header,selected⟩,{current_request with uri := current_request.uri ++ word}) := by
  have loop := reads_word (fun uri => (⟨.uri,current_header,selected⟩,{current_request with uri := uri})) current_request.uri word
    fun uri c member => by simp [consume,plain c member]
  exact Reads.append loop (.cons rfl (.cons rfl (.cons rfl (.cons rfl (.cons rfl (.single rfl))))))

private theorem reads_version {minor : List Char} (some_word : word ≠ []) (digits : ∀ c ∈ word, is_digit c = true) (some_minor : minor ≠ [])
    (minor_digits : ∀ c ∈ minor, is_digit c = true) :
    ReadsTo (⟨.http_version_major_start,current_header,selected⟩,current_request) (word ++ '.' :: minor ++ ['\r','\n'])
      (⟨.header_line_start,current_header,selected⟩,current_request) := by
  obtain ⟨first,rest,rfl⟩ := exists_cons_of_ne_nil some_word
  obtain ⟨second,more,rfl⟩ := exists_cons_of_ne_nil some_minor
  have enter : consume (⟨.http_version_major_start,current_header,selected⟩,current_request) first =
      (.indeterminate,⟨.http_version_major,current_header,selected⟩,current_request) := by
    simp [consume,goto,digits first mem_cons_self]
  have loop : ReadsTo (⟨.http_version_major,current_header,selected⟩,current_request) rest
      (⟨.http_version_major,current_header,selected⟩,current_request) := by
    refine Reads.skip fun c member => ?_
    have digit := digits c (mem_cons_of_mem _ member)
    simp [consume,digit,digit_ne digit]
  have enter_minor : consume (⟨.http_version_minor_start,current_header,selected⟩,current_request) second =
      (.indeterminate,⟨.http_version_minor,current_header,selected⟩,current_request) := by
    simp [consume,goto,minor_digits second mem_cons_self]
  have minor_loop : ReadsTo (⟨.http_version_minor,current_header,selected⟩,current_request) more
      (⟨.http_version_minor,current_header,selected⟩,current_request) := by
    refine Reads.skip fun c member => ?_
    have digit := minor_digits c (mem_cons_of_mem _ member)
    simp [consume,digit,digit_ne digit]
  have dot : consume (⟨.http_version_major,current_header,selected⟩,current_request) '.' =
      (.indeterminate,⟨.http_version_minor_start,current_header,selected⟩,current_request) := rfl
  have front := (Reads.cons enter loop).append (Reads.cons dot (Reads.cons enter_minor minor_loop))
  exact front.append (Reads.cons rfl (Reads.single rfl))

private theorem reads_value {name : List Char} (printable : ∀ c ∈ word, is_printable c = true) :
    ReadsTo (⟨.header_value,⟨name,[]⟩,selected⟩,current_request) word
      (⟨.header_value,⟨name,word.filter (· != ' ')⟩,selected⟩,current_request) := by
  let state_of : List Char → Machine := fun value => (⟨.header_value,⟨name,value⟩,selected⟩,current_request)
  refine Reads.collect state_of (· != ' ') [] word fun value c member => ?_
  have plain := printable_plain (printable c member)
  by_cases blank : c = ' '
  · simp [state_of,consume,goto,blank]
  · simp [state_of,consume,blank,plain]

private theorem reads_header (line : HeaderLine) :
    ReadsTo (⟨.header_line_start,current_header,selected⟩,current_request) line.render
      (⟨.header_line_start,⟨line.name,line.value.filter (· != ' ')⟩,noteCompression current_header selected⟩,
        noteHeader current_request current_header) := by
  obtain ⟨name,value,some_name,token,printable⟩ := line
  obtain ⟨first,rest,rfl⟩ := exists_cons_of_ne_nil some_name
  have begins := token first mem_cons_self
  have enter : consume (⟨.header_line_start,current_header,selected⟩,current_request) first =
      (.indeterminate,⟨.header_name,⟨[first],[]⟩,noteCompression current_header selected⟩,noteHeader current_request current_header) := by
    simp [consume,token_ne begins,token_iff.mp begins]
  have loop := reads_word
    (fun name => (⟨.header_name,⟨name,[]⟩,noteCompression current_header selected⟩,noteHeader current_request current_header))
    [first] rest fun name c member => by
      have later := token c (mem_cons_of_mem _ member)
      simp [consume,token_ne later,token_iff.mp later]
  have colon : ReadsTo
      (⟨.header_name,⟨first :: rest,[]⟩,noteCompression current_header selected⟩,noteHeader current_request current_header) [':',' ']
      (⟨.header_value,⟨first :: rest,[]⟩,noteCompression current_header selected⟩,noteHeader current_request current_header) :=
    Reads.cons rfl (Reads.single rfl)
  have front := (Reads.cons enter loop).append (colon.append (reads_value printable))
  exact front.append (Reads.cons rfl (Reads.single rfl))

def HeaderLine.stored (line : HeaderLine) : header := ⟨line.name,line.value.filter (· != ' ')⟩

private theorem reads_headers (headers : List HeaderLine) :
    ∃ parser, run consume .indeterminate (⟨.header_line_start,current_header,selected⟩,current_request)
      (headers.flatMap HeaderLine.render ++ ['\r','\n']) =
        (.valid,parser,(current_header :: headers.map HeaderLine.stored).foldl noteHeader current_request) := by
  induction headers generalizing current_header selected current_request with
  | nil => exact ⟨_,rfl⟩
  | cons line headers ih =>
    obtain ⟨parser,rest⟩ := @ih line.stored (noteCompression current_header selected) (noteHeader current_request current_header)
    refine ⟨parser,?_⟩
    rw [flatMap_cons,append_assoc,(reads_header line).run_append]
    exact rest

private theorem reads_request (text : RequestText) (pieces : List (List Char)) (whole : pieces.flatten = text.render) :
    ∃ parser, handle_read start pieces =
      (.valid,parser,(text.headers.map HeaderLine.stored).foldl noteHeader ⟨text.uri,[],[],[]⟩) := by
  have order : text.render = (text.method ++ [' ']) ++ ((text.uri ++ [' ','H','T','T','P','/']) ++
      ((text.major ++ '.' :: text.minor ++ ['\r','\n']) ++ (text.headers.flatMap HeaderLine.render ++ ['\r','\n']))) := by
    simp [RequestText.render,append_assoc]
  rw [handle_read,feed_eq_run,whole,order,start,(reads_method text.some_method text.token).run_append,
    (reads_uri text.plain).run_append,
    (reads_version text.some_major text.major_digits text.some_minor text.minor_digits).run_append]
  exact reads_headers text.headers

private theorem foldl_last {α β : Type} (p : α → Bool) (g : α → β) (l : List α) (first : β) :
    l.foldl (fun value a => if p a then g a else value) first = ((l.filter p).getLast?.map g).getD first := by
  induction l using List.reverseRecOn with
  | nil => rfl
  | append_singleton l a ih =>
    rw [foldl_append,foldl_cons,foldl_nil,filter_append]
    cases holds : p a with
    | true => simp [holds]
    | false => simp [holds,ih]

private theorem filter_trim (value : List Char) : (trim value).filter (· != ' ') = value.filter (· != ' ') := by
  have front (l : List Char) : (l.dropWhile (· == ' ')).filter (· != ' ') = l.filter (· != ' ') := by
    induction l with
    | nil => rfl
    | cons c l ih =>
      by_cases blank : c = ' '
      · rw [dropWhile_cons_of_pos (by simpa using blank),filter_cons_of_neg (by simpa using blank),ih]
      · rw [dropWhile_cons_of_neg (by simpa using blank)]
  rw [trim,filter_reverse,front,filter_reverse,reverse_reverse,front]

private theorem filter_eq_trim_iff (value : List Char) : value.filter (· != ' ') = trim value ↔ ' ' ∉ trim value := by
  rw [← filter_trim,filter_eq_self]
  constructor
  · intro all blank
    simpa using all ' ' blank
  · intro none c member
    simpa using fun same : c = ' ' => none (same ▸ member)

private theorem foldl_noteHeader (headers : List header) (first : request) : headers.foldl noteHeader first =
    ⟨first.uri,((headers.filter fun line => iequals line.name Referer).getLast?.map header.value).getD first.referrer,
      ((headers.filter fun line => iequals line.name User_Agent).getLast?.map header.value).getD first.agent,
      ((headers.filter fun line => iequals line.name Connection).getLast?.map header.value).getD first.connection⟩ := by
  rw [← foldl_last,← foldl_last,← foldl_last]
  induction headers generalizing first with
  | nil => rfl
  | cons line headers ih =>
    rw [foldl_cons,ih]
    simp only [foldl_cons,noteHeader]
    split_ifs <;> rfl

def RequestText.stored (text : RequestText) (name : List Char) : List Char :=
  ((text.headers.filter fun line => iequals line.name name).getLast?.map fun line => line.value.filter (· != ' ')).getD []

private theorem stored_eq_last_iff (text : RequestText) (name : List Char) : text.stored name = text.last name ↔ ' ' ∉ text.last name := by
  rw [RequestText.stored,RequestText.last]
  cases (text.headers.filter fun line => iequals line.name name).getLast? with
  | none => simp
  | some line => exact filter_eq_trim_iff line.value

end Reading

/-- However it is split, a request is read with its URI, and the three values are stored as written exactly where none
    has a blank inside. -/
theorem request_read_iff (text : RequestText) :
    (∀ pieces : List (List Char), pieces.flatten = text.render →
      (handle_read start pieces).1 = .valid ∧
        (handle_read start pieces).2.2 = ⟨text.uri,text.last Referer,text.last User_Agent,text.last Connection⟩) ↔
      ∀ name ∈ [Referer,User_Agent,Connection], ' ' ∉ text.last name := by
  have read (pieces : List (List Char)) (whole : pieces.flatten = text.render) : ∃ parser, handle_read start pieces =
      (.valid,parser,⟨text.uri,text.stored Referer,text.stored User_Agent,text.stored Connection⟩) := by
    obtain ⟨parser,same⟩ := reads_request text pieces whole
    refine ⟨parser,same.trans ?_⟩
    rw [foldl_noteHeader]
    simp [filter_map,RequestText.stored,HeaderLine.stored,Function.comp_def]
  simp only [forall_mem_cons,← stored_eq_last_iff]
  constructor
  · intro all
    obtain ⟨parser,same⟩ := read [text.render] (by simp)
    have stored := (all [text.render] (by simp)).2
    rw [same] at stored
    simp only [request.mk.injEq] at stored
    exact ⟨stored.2.1,stored.2.2.1,stored.2.2.2,by simp⟩
  · rintro ⟨referrer,agent,connection,-⟩ pieces whole
    obtain ⟨parser,same⟩ := read pieces whole
    rw [same,referrer,agent,connection]
    exact ⟨rfl,rfl⟩

def two_words : RequestText where
  method := ['G','E','T']
  uri := ['/']
  major := ['1']
  minor := ['1']
  headers := [⟨User_Agent,['a',' ','b'],by decide,all_eq_true.mp (by decide),all_eq_true.mp (by decide)⟩]
  some_method := by decide
  token := all_eq_true.mp (by decide)
  plain := forall_mem_singleton.mpr (by decide)
  some_major := by decide
  major_digits := all_eq_true.mp (by decide)
  some_minor := by decide
  minor_digits := all_eq_true.mp (by decide)

/-- The two words are stored as one. -/
theorem blank_is_lost : (handle_read start [two_words.render]).1 = .valid ∧
    (handle_read start [two_words.render]).2.2.agent = ['a','b'] ∧ two_words.last User_Agent = ['a',' ','b'] := by
  decide

end Osrm.Server
