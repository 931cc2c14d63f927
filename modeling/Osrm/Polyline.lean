import Osrm.Hint
import Osrm.Rounding

/-!
The polylines of `engine/polyline_compressor.hpp` and the rules of the URL grammar that read them: the differences
between consecutive coordinates, folded into numbers without sign, five bits a character, the lowest first.
-/
namespace Osrm.Polyline
open List
open Rounding Hint
open Rectangle (Coordinate)

def COORDINATE_PRECISION : ℚ := 1000000
/-- `static_cast<char>`. -/
def charOf (value : BitVec 32) : Char := Char.ofNat (value.setWidth 8).toNat

private theorem toNat_of_not_slt {number : BitVec 32} (large : ¬number.slt 0x20 = true) : number.msb = false ∧ 32 ≤ number.toNat := by
  have bound : (0x20 : BitVec 32).toInt = 32 := by decide
  rw [BitVec.slt_eq_decide,decide_eq_true_eq,not_lt,bound] at large
  have positive : number.msb = false := by
    rw [BitVec.msb_eq_toInt,decide_eq_false_iff_not]
    omega
  rw [BitVec.toInt_eq_toNat_of_msb positive] at large
  exact ⟨positive,by exact_mod_cast large⟩

/-- The loop of `encode`, for a number that is not negative. -/
def encodeChunks (number_to_encode : BitVec 32) : List Char :=
  if number_to_encode.slt 0x20 then [charOf (number_to_encode + 63)]
  else charOf ((0x20 ||| (number_to_encode &&& 0x1f)) + 63) :: encodeChunks (number_to_encode.sshiftRight 5)
termination_by number_to_encode.toNat
decreasing_by
  rename_i large
  obtain ⟨positive,low⟩ := toNat_of_not_slt large
  rw [BitVec.sshiftRight_eq_of_msb_false positive,BitVec.toNat_ushiftRight,Nat.shiftRight_eq_div_pow]
  omega

/-- The first half of `encode`: the sign becomes the lowest bit. -/
def zigzag (number_to_encode : BitVec 32) : BitVec 32 :=
  if number_to_encode.slt 0 then
    let binary := number_to_encode.abs
    let twos := ~~~binary + 1#32
    let shl := twos <<< 1
    ~~~shl
  else number_to_encode <<< 1

def encode (number_to_encode : BitVec 32) : List Char := encodeChunks (zigzag number_to_encode)
/-- `*first - 63` for a signed `char`. -/
def valueOf (c : Char) : BitVec 32 := (BitVec.ofNat 8 c.toNat).signExtend 32 - 63

/-- The loop of `decode_polyline_integer`: the result and what is left of the input. -/
def decodeChunks (value result : BitVec 32) (shift : ℕ) : List Char → BitVec 32 × List Char
  | [] => (result,[])
  | c :: rest =>
    if value &&& 0x20 ≠ 0 ∧ shift < 31 then
      decodeChunks (valueOf c) (result ||| ((valueOf c &&& 0x1f) <<< shift)) (shift + 5) rest
    else (result,c :: rest)

def unzigzag (result : BitVec 32) : BitVec 32 := if result &&& 1 = 1 then ~~~(result >>> 1) else result >>> 1
def decode_polyline_integer (first : List Char) : ℤ × List Char :=
  let chunks := decodeChunks 0x20 0 0 first
  ((unzigzag chunks.1).toInt,chunks.2)

def encodeFrom (coordinate_to_polyline : ℚ) (current_lat current_lon : ℤ) : List Coordinate → List Char
  | [] => []
  | coordinate :: rest =>
    let lat_diff := lround (coordinate.lat * coordinate_to_polyline) - current_lat
    let lon_diff := lround (coordinate.lon * coordinate_to_polyline) - current_lon
    encode (BitVec.ofInt 32 lat_diff) ++ encode (BitVec.ofInt 32 lon_diff) ++
      encodeFrom coordinate_to_polyline (current_lat + lat_diff) (current_lon + lon_diff) rest

def encodePolyline (POLYLINE_PRECISION : ℕ) (coordinates : List Coordinate) : List Char :=
  encodeFrom (POLYLINE_PRECISION / COORDINATE_PRECISION) 0 0 coordinates
def int32 (x : ℤ) : Option ℤ := if -2 ^ 31 ≤ x ∧ x < 2 ^ 31 then some x else none

private theorem decodeChunks_length (value result : BitVec 32) (shift : ℕ) (first : List Char) :
    (decodeChunks value result shift first).2.length ≤ first.length := by
  induction first generalizing value result shift with
  | nil => simp [decodeChunks]
  | cons c rest ih =>
    rw [decodeChunks]
    split_ifs
    · exact (ih ..).trans (Nat.le_succ _)
    · rfl

private theorem decode_polyline_integer_length (first : List Char) : (decode_polyline_integer first).2.length ≤ first.length :=
  decodeChunks_length ..

private theorem decode_polyline_integer_consumes (c : Char) (rest : List Char) :
    (decode_polyline_integer (c :: rest)).2.length ≤ rest.length := by
  rw [decode_polyline_integer,decodeChunks,if_pos (by decide)]
  exact decodeChunks_length ..

/-- The loop of `decodePolyline`, which is undefined where a sum or a scaled value leaves 32 bits. -/
def decodeFrom (polyline_to_coordinate : ℚ) (latitude longitude : ℤ) : List Char → Option (List Coordinate)
  | [] => some []
  | c :: rest => do
    let first := decode_polyline_integer (c :: rest)
    let second := decode_polyline_integer first.2
    let latitude ← int32 (latitude + first.1)
    let longitude ← int32 (longitude + second.1)
    let lon ← int32 (truncated (longitude * polyline_to_coordinate))
    let lat ← int32 (truncated (latitude * polyline_to_coordinate))
    let coordinates ← decodeFrom polyline_to_coordinate latitude longitude second.2
    some (⟨lon,lat⟩ :: coordinates)
termination_by polyline => polyline.length
decreasing_by
  exact Nat.lt_succ_of_le ((decode_polyline_integer_length _).trans (decode_polyline_integer_consumes c rest))

def decodePolyline (POLYLINE_PRECISION : ℕ) (polyline : List Char) : Option (List Coordinate) :=
  decodeFrom (COORDINATE_PRECISION / POLYLINE_PRECISION) 0 0 polyline

section Chunks
variable {number result value : BitVec 32} {shift : ℕ}

private theorem slt_iff (positive : number.toNat < 2 ^ 31) : number.slt 0x20 = true ↔ number.toNat < 32 := by
  have bound : (0x20 : BitVec 32).toInt = 32 := by decide
  rw [BitVec.slt_eq_decide,decide_eq_true_eq,BitVec.toInt_eq_toNat_of_lt (by omega),bound]
  omega

private theorem valueOf_charOf : ∀ v < 64, valueOf (charOf (BitVec.ofNat 32 v + 63)) = BitVec.ofNat 32 v := by
  simp only [valueOf,charOf]
  decide

private theorem toNat_and_mask (number : BitVec 32) : (number &&& 0x1f).toNat = number.toNat % 32 := by
  rw [BitVec.toNat_and]
  exact Nat.and_two_pow_sub_one_eq_mod number.toNat 5
private theorem ofNat_toNat_self (number : BitVec 32) : BitVec.ofNat 32 number.toNat = number := by simp
private theorem last_value (small : number.toNat < 32) : valueOf (charOf (number + 63)) = number := by
  rw [← ofNat_toNat_self number]
  exact valueOf_charOf _ (by omega)
private theorem toNat_continued (number : BitVec 32) : (0x20 ||| (number &&& 0x1f)).toNat = 32 + number.toNat % 32 := by
  have disjoint := Nat.two_pow_add_eq_or_of_lt (show number.toNat % 32 < 2 ^ 5 by omega) 1
  rw [BitVec.toNat_or,toNat_and_mask]
  simpa using disjoint.symm

private theorem next_value (number : BitVec 32) :
    valueOf (charOf ((0x20 ||| (number &&& 0x1f)) + 63)) = 0x20 ||| (number &&& 0x1f) := by
  have continued := toNat_continued number
  have same : BitVec.ofNat 32 (32 + number.toNat % 32) = 0x20 ||| (number &&& 0x1f) :=
    BitVec.eq_of_toNat_eq (by rw [continued,BitVec.toNat_ofNat]; omega)
  rw [← same]
  exact valueOf_charOf _ (by omega)

private theorem continued_and (number : BitVec 32) : (0x20 ||| (number &&& 0x1f)) &&& 0x20 ≠ 0 := by
  have same : (0x20 ||| (number &&& 0x1f)) &&& 0x20 = (0x20 : BitVec 32) := by
    ext i inside
    simp only [BitVec.getElem_and,BitVec.getElem_or]
    cases (32#32)[i] <;> simp
  rw [same]
  decide

private theorem last_and (small : number.toNat < 32) : number &&& 0x20 = 0 := by
  have cleared : ∀ v < 32, BitVec.ofNat 32 v &&& 0x20 = 0 := by decide
  rw [← ofNat_toNat_self number]
  exact cleared _ small
private theorem toNat_or_shiftLeft (low : result.toNat < 2 ^ shift) (room : number.toNat * 2 ^ shift < 2 ^ 32) :
    (result ||| number <<< shift).toNat = result.toNat + number.toNat * 2 ^ shift := by
  have disjoint := Nat.two_pow_add_eq_or_of_lt low number.toNat
  rw [BitVec.toNat_or,BitVec.toNat_shiftLeft,Nat.shiftLeft_eq,Nat.mod_eq_of_lt room,Nat.or_comm,mul_comm,← disjoint,add_comm]
private theorem decodeChunks_stop (last : value &&& 0x20 = 0) (first : List Char) :
    decodeChunks value result shift first = (result,first) := by
  cases first with
  | nil => rfl
  | cons c rest => rw [decodeChunks,if_neg fun more => more.1 last]

private theorem decodeChunks_encodeChunks (more : value &&& 0x20 ≠ 0) (inside : shift < 31) (low : result.toNat < 2 ^ shift)
    (room : number.toNat * 2 ^ shift < 2 ^ 31) (rest : List Char) :
    decodeChunks value result shift (encodeChunks number ++ rest) =
      (BitVec.ofNat 32 (result.toNat + number.toNat * 2 ^ shift),rest) := by
  have scale := Nat.two_pow_pos shift
  have positive : number.toNat < 2 ^ 31 := (Nat.le_mul_of_pos_right _ scale).trans_lt room
  fun_induction encodeChunks number generalizing value result shift with
  | case1 number small =>
    rw [slt_iff positive] at small
    rw [singleton_append,decodeChunks,if_pos ⟨more,inside⟩,last_value small,decodeChunks_stop (last_and small)]
    have all : number &&& 0x1f = number := BitVec.eq_of_toNat_eq (by rw [toNat_and_mask,Nat.mod_eq_of_lt small])
    rw [all,← toNat_or_shiftLeft low (by omega),ofNat_toNat_self]
  | case2 number large ih =>
    obtain ⟨sign,big⟩ := toNat_of_not_slt large
    have shifted : (number.sshiftRight 5).toNat = number.toNat / 32 := by
      rw [BitVec.sshiftRight_eq_of_msb_false sign,BitVec.toNat_ushiftRight,Nat.shiftRight_eq_div_pow]
    have masked : (0x20 ||| (number &&& 0x1f)) &&& 0x1f = number &&& 0x1f :=
      BitVec.eq_of_toNat_eq (by rw [toNat_and_mask,toNat_continued,toNat_and_mask]; omega)
    have division := Nat.div_add_mod number.toNat 32
    have parts : number.toNat * 2 ^ shift = number.toNat / 32 * 2 ^ (shift + 5) + number.toNat % 32 * 2 ^ shift := by
      rw [pow_add]
      nlinarith
    have group : (number &&& 0x1f).toNat * 2 ^ shift < 2 ^ 32 := by rw [toNat_and_mask]; omega
    have next := toNat_or_shiftLeft low group
    rw [toNat_and_mask] at next
    have low' : (result ||| (number &&& 0x1f) <<< shift).toNat < 2 ^ (shift + 5) := by
      rw [next,pow_add]
      nlinarith [Nat.mod_lt number.toNat (show 32 > 0 by decide)]
    have inside' : shift + 5 < 31 := by
      have whole : 1 * 2 ^ (shift + 5) ≤ number.toNat / 32 * 2 ^ (shift + 5) := Nat.mul_le_mul_right _ (by omega)
      exact (Nat.pow_lt_pow_iff_right (show 1 < 2 by decide)).mp (by omega)
    rw [cons_append,decodeChunks,if_pos ⟨more,inside⟩,next_value,masked,
      ih (continued_and number) inside' low' (by rw [shifted]; omega) (Nat.two_pow_pos _) (by rw [shifted]; omega),shifted,next]
    congr 2
    omega

private theorem zigzag_toNat {n : ℤ} (low : -2 ^ 30 < n) (high : n < 2 ^ 30) :
    (zigzag (BitVec.ofInt 32 n)).toNat = if n < 0 then (-2 * n - 1).toNat else (2 * n).toNat := by
  have fits : (BitVec.ofInt 32 n).toInt = n := by
    rw [BitVec.toInt_ofInt,Int.bmod_def]
    omega
  have zero : (0 : BitVec 32).toInt = 0 := by decide
  rw [zigzag,BitVec.slt_eq_decide,fits,zero]
  by_cases negative : n < 0
  · have sign : (BitVec.ofInt 32 n).msb = true := by
      rw [BitVec.msb_eq_toInt,fits]
      exact decide_eq_true negative
    have twos : ~~~(BitVec.ofInt 32 n).abs + 1#32 = BitVec.ofInt 32 n := by
      rw [← BitVec.neg_eq_not_add,BitVec.abs_eq,if_pos sign,BitVec.neg_neg]
    rw [if_pos (decide_eq_true negative),if_pos negative]
    simp only [twos]
    rw [BitVec.toNat_not,BitVec.toNat_shiftLeft,BitVec.toNat_ofInt,Nat.shiftLeft_eq]
    omega
  · rw [if_neg (by simpa using negative),if_neg negative,BitVec.toNat_shiftLeft,BitVec.toNat_ofInt,Nat.shiftLeft_eq]
    omega

private theorem unzigzag_toInt (small : result.toNat < 2 ^ 31) :
    (unzigzag result).toInt = if result.toNat % 2 = 1 then -((result.toNat / 2 : ℕ) : ℤ) - 1
      else ((result.toNat / 2 : ℕ) : ℤ) := by
  have odd : result &&& 1 = 1 ↔ result.toNat % 2 = 1 := by
    rw [← BitVec.toNat_inj,BitVec.toNat_and]
    simp
  rw [unzigzag]
  simp only [odd]
  split_ifs
  · rw [BitVec.toInt_not,BitVec.toNat_ushiftRight,Nat.shiftRight_eq_div_pow,Int.bmod_def]
    omega
  · have half : (result >>> 1).toNat = result.toNat / 2 := by rw [BitVec.toNat_ushiftRight,Nat.shiftRight_eq_div_pow]
    rw [BitVec.toInt_eq_toNat_of_lt (by omega),half]

private theorem decode_encode {n : ℤ} (low : -2 ^ 30 < n) (high : n < 2 ^ 30) (rest : List Char) :
    decode_polyline_integer (encode (BitVec.ofInt 32 n) ++ rest) = (n,rest) := by
  have folded := zigzag_toNat low high
  have small : (zigzag (BitVec.ofInt 32 n)).toNat < 2 ^ 31 := by rw [folded]; split_ifs <;> omega
  rw [decode_polyline_integer,encode,decodeChunks_encodeChunks (by decide) (by decide) (by decide) (by simpa using small)]
  have zero : (0 : BitVec 32).toNat = 0 := rfl
  rw [zero,zero_add,pow_zero,mul_one,ofNat_toNat_self,unzigzag_toInt small,folded]
  ext
  · split_ifs <;> omega
  · rfl

end Chunks

private theorem encode_ne_nil (number : BitVec 32) : encode number ≠ [] := by
  rw [encode,encodeChunks]
  split_ifs <;> simp

private theorem decodeFrom_eq (polyline_to_coordinate : ℚ) (latitude longitude : ℤ) {polyline : List Char} (more : polyline ≠ []) :
    decodeFrom polyline_to_coordinate latitude longitude polyline = (do
      let first := decode_polyline_integer polyline
      let second := decode_polyline_integer first.2
      let latitude ← int32 (latitude + first.1)
      let longitude ← int32 (longitude + second.1)
      let lon ← int32 (truncated (longitude * polyline_to_coordinate))
      let lat ← int32 (truncated (latitude * polyline_to_coordinate))
      let coordinates ← decodeFrom polyline_to_coordinate latitude longitude second.2
      some (⟨lon,lat⟩ :: coordinates)) := by
  cases polyline with
  | nil => exact absurd rfl more
  | cons c rest => rw [decodeFrom]

section RoundTrip
variable {coordinate_to_polyline : ℚ} {polyline_to_coordinate size current_lat current_lon : ℤ} {coordinates : List Coordinate}

/-- The coordinate that is written. -/
def rounded (coordinate_to_polyline : ℚ) (polyline_to_coordinate : ℤ) (coordinate : Coordinate) : Coordinate :=
  ⟨lround (coordinate.lon * coordinate_to_polyline) * polyline_to_coordinate,
    lround (coordinate.lat * coordinate_to_polyline) * polyline_to_coordinate⟩

/-- Every difference fits, and so does every value once it is scaled. -/
structure Fits (coordinate_to_polyline : ℚ) (polyline_to_coordinate size : ℤ) (coordinates : List Coordinate) : Prop where
  differences : size < 2 ^ 29
  positive : 0 < polyline_to_coordinate
  scaled : size * polyline_to_coordinate < 2 ^ 31
  lat : ∀ coordinate ∈ coordinates, |lround (coordinate.lat * coordinate_to_polyline)| ≤ size
  lon : ∀ coordinate ∈ coordinates, |lround (coordinate.lon * coordinate_to_polyline)| ≤ size

private theorem int32_scaled {x : ℤ} (positive : 0 < polyline_to_coordinate) (scaled : size * polyline_to_coordinate < 2 ^ 31)
    (bound : |x| ≤ size) : int32 (truncated (x * (polyline_to_coordinate : ℚ))) = some (x * polyline_to_coordinate) := by
  rw [abs_le] at bound
  have low : -(size * polyline_to_coordinate) ≤ x * polyline_to_coordinate := by nlinarith
  have high : x * polyline_to_coordinate ≤ size * polyline_to_coordinate := by nlinarith
  rw [← Int.cast_mul,truncated_intCast,int32,if_pos (by omega)]

private theorem decodeFrom_encodeFrom (fits : Fits coordinate_to_polyline polyline_to_coordinate size coordinates)
    (lat : |current_lat| ≤ size) (lon : |current_lon| ≤ size) :
    decodeFrom polyline_to_coordinate current_lat current_lon
        (encodeFrom coordinate_to_polyline current_lat current_lon coordinates) =
      some (coordinates.map (rounded coordinate_to_polyline polyline_to_coordinate)) := by
  induction coordinates generalizing current_lat current_lon with
  | nil => simp [encodeFrom,decodeFrom]
  | cons coordinate rest ih =>
    obtain ⟨small,positive,scaled,latitudes,longitudes⟩ := fits
    have next := ih ⟨small,positive,scaled,fun c member => latitudes c (.tail _ member),
      fun c member => longitudes c (.tail _ member)⟩ (latitudes coordinate (.head _)) (longitudes coordinate (.head _))
    have newLat := latitudes coordinate (.head _)
    have newLon := longitudes coordinate (.head _)
    have scaledLat := int32_scaled positive scaled newLat
    have scaledLon := int32_scaled positive scaled newLon
    rw [encodeFrom,decodeFrom_eq _ _ _ (by simp [encode_ne_nil]),map_cons,rounded]
    generalize lround (coordinate.lat * coordinate_to_polyline) = nextLat at newLat next scaledLat
    generalize lround (coordinate.lon * coordinate_to_polyline) = nextLon at newLon next scaledLon
    rw [abs_le] at lat lon newLat newLon
    have first (input : List Char) := decode_encode (n := nextLat - current_lat) (by omega) (by omega) input
    have second (input : List Char) := decode_encode (n := nextLon - current_lon) (by omega) (by omega) input
    have latFits : int32 nextLat = some nextLat := if_pos (by omega)
    have lonFits : int32 nextLon = some nextLon := if_pos (by omega)
    simp only [append_assoc,first,second,add_sub_cancel,latFits,lonFits,Option.bind_eq_bind,Option.bind_some,scaledLat,
      scaledLon,next]

private theorem encodeFrom_rounded (inverse : polyline_to_coordinate * coordinate_to_polyline = 1) :
    encodeFrom coordinate_to_polyline current_lat current_lon
        (coordinates.map (rounded coordinate_to_polyline polyline_to_coordinate)) =
      encodeFrom coordinate_to_polyline current_lat current_lon coordinates := by
  have same (x : ℤ) : lround (((x * polyline_to_coordinate : ℤ) : ℚ) * coordinate_to_polyline) = x := by
    rw [Int.cast_mul,mul_assoc,inverse,mul_one,lround_intCast]
  induction coordinates generalizing current_lat current_lon with
  | nil => rfl
  | cons coordinate rest ih => simp only [map_cons,encodeFrom,rounded,same,ih]

private theorem abs_rounded_le {x : ℤ} (notNegative : 0 ≤ coordinate_to_polyline) (bound : |x| ≤ 180000000)
    (whole : 180000000 * coordinate_to_polyline = size) : |lround (x * coordinate_to_polyline)| ≤ size := by
  refine abs_lround_le ?_
  rw [abs_mul,abs_of_nonneg notNegative,← whole]
  exact mul_le_mul_of_nonneg_right (by exact_mod_cast bound) notNegative

private theorem fits_of_valid (valid : ∀ coordinate ∈ coordinates, isValidCoordinate coordinate = true)
    (notNegative : 0 ≤ coordinate_to_polyline) (whole : 180000000 * coordinate_to_polyline = size) (small : size < 2 ^ 29)
    (positive : 0 < polyline_to_coordinate) (scaled : size * polyline_to_coordinate < 2 ^ 31) :
    Fits coordinate_to_polyline polyline_to_coordinate size coordinates := by
  have bounds (coordinate) (member : coordinate ∈ coordinates) :
      |coordinate.lat| ≤ 180000000 ∧ |coordinate.lon| ≤ 180000000 := by
    have inside := valid coordinate member
    simp only [isValidCoordinate,Bool.not_eq_true',Bool.or_eq_false_iff,decide_eq_false_iff_not,not_lt] at inside
    rw [abs_le,abs_le]
    omega
  exact ⟨small,positive,scaled,fun coordinate member => abs_rounded_le notNegative (bounds coordinate member).1 whole,
    fun coordinate member => abs_rounded_le notNegative (bounds coordinate member).2 whole⟩

private theorem decode_encodePolyline (precision : ℕ) (polyline_to_coordinate size : ℤ)
    (valid : ∀ coordinate ∈ coordinates, isValidCoordinate coordinate = true)
    (inverse : (precision : ℚ) * polyline_to_coordinate = COORDINATE_PRECISION) (positive : 0 < precision)
    (whole : size = 180 * precision) (small : size < 2 ^ 29) :
    decodePolyline precision (encodePolyline precision coordinates) =
        some (coordinates.map (rounded (precision / COORDINATE_PRECISION) polyline_to_coordinate)) ∧
      (decodePolyline precision (encodePolyline precision coordinates)).map (encodePolyline precision) =
        some (encodePolyline precision coordinates) := by
  have some' : (0 : ℚ) < precision := by exact_mod_cast positive
  have product : precision * polyline_to_coordinate = 1000000 := by
    rw [COORDINATE_PRECISION] at inverse
    exact_mod_cast inverse
  have step : 0 < polyline_to_coordinate := by
    have : (0 : ℤ) < precision := by exact_mod_cast positive
    nlinarith
  have factor : COORDINATE_PRECISION / precision = polyline_to_coordinate := by
    rw [← inverse,mul_comm,mul_div_assoc,div_self some'.ne',mul_one]
  have back : polyline_to_coordinate * (precision / COORDINATE_PRECISION) = 1 := by
    rw [mul_div_assoc',mul_comm,inverse]
    norm_num [COORDINATE_PRECISION]
  have fits : Fits (precision / COORDINATE_PRECISION) polyline_to_coordinate size coordinates := by
    refine fits_of_valid valid (div_nonneg some'.le (by norm_num [COORDINATE_PRECISION])) ?_ small step ?_
    · rw [whole,COORDINATE_PRECISION]
      push_cast
      ring
    · rw [whole,mul_assoc,product]
      decide
  have size' : 0 ≤ size := by rw [whole]; positivity
  have decoded := decodeFrom_encodeFrom fits (abs_zero.trans_le size') (abs_zero.trans_le size')
  rw [decodePolyline,encodePolyline,factor,decoded]
  refine ⟨rfl,?_⟩
  rw [Option.map_some,encodePolyline,encodeFrom_rounded back]

end RoundTrip

def nearestTen (coordinate : Coordinate) : Coordinate :=
  ⟨lround ((coordinate.lon : ℚ) / 10) * 10,lround ((coordinate.lat : ℚ) / 10) * 10⟩

/-- Coordinates come back at their precision, multiples of ten at the default one, and are written as before. -/
theorem polyline_round_trip (coordinates : List Coordinate)
    (valid : ∀ coordinate ∈ coordinates, isValidCoordinate coordinate = true) :
    decodePolyline 1000000 (encodePolyline 1000000 coordinates) = some coordinates ∧
    decodePolyline 100000 (encodePolyline 100000 coordinates) = some (coordinates.map nearestTen) ∧
    (∀ precision ∈ [100000,1000000], (decodePolyline precision (encodePolyline precision coordinates)).map
      (encodePolyline precision) = some (encodePolyline precision coordinates)) := by
  have fine := decode_encodePolyline 1000000 1 180000000 valid
    (by norm_num [COORDINATE_PRECISION]) (by decide) (by decide) (by decide)
  have coarse := decode_encodePolyline 100000 10 18000000 valid
    (by norm_num [COORDINATE_PRECISION]) (by decide) (by decide) (by decide)
  have same : rounded ((1000000 : ℕ) / COORDINATE_PRECISION) 1 = id := by
    funext coordinate
    simp [rounded,COORDINATE_PRECISION]
  have tens : rounded ((100000 : ℕ) / COORDINATE_PRECISION) 10 = nearestTen := by
    funext coordinate
    simp only [rounded,nearestTen,COORDINATE_PRECISION]
    norm_num [div_eq_mul_inv]
  rw [same,map_id] at fine
  rw [tens] at coarse
  refine ⟨fine.1,coarse.1,fun precision member => ?_⟩
  rcases mem_pair.mp member with rfl | rfl
  · exact coarse.2
  · exact fine.2

/-- Three coordinates, the last of which is rounded up. -/
theorem polyline_round_trip_three :
    decodePolyline 100000 (encodePolyline 100000 [⟨-120200000,38500000⟩,⟨-120950000,40700000⟩,⟨-126453005,43252004⟩]) =
      some [⟨-120200000,38500000⟩,⟨-120950000,40700000⟩,⟨-126453010,43252000⟩] := by
  have decoded := (polyline_round_trip [⟨-120200000,38500000⟩,⟨-120950000,40700000⟩,⟨-126453005,43252004⟩] (by decide)).2.1
  rw [decoded]
  decide +kernel

/-! ### Polylines of a request -/

/-- The differences that a string stands for. -/
def differences : List Char → List (ℤ × ℤ)
  | [] => []
  | c :: rest =>
    let first := decode_polyline_integer (c :: rest)
    let second := decode_polyline_integer first.2
    (first.1,second.1) :: differences second.2
termination_by polyline => polyline.length
decreasing_by
  exact Nat.lt_succ_of_le ((decode_polyline_integer_length _).trans (decode_polyline_integer_consumes c rest))

/-- The sums of the first differences, which are the coordinates that are meant, are between two bounds. -/
def SumsWithin (low high : ℤ) (steps : List ℤ) : Prop := ∀ k, low ≤ (steps.take k).sum ∧ (steps.take k).sum ≤ high

private theorem sums_cons {x start : ℤ} {steps : List ℤ} {P : ℤ → Prop} :
    (∀ k, P (start + ((x :: steps).take k).sum)) ↔ P start ∧ ∀ k, P (start + x + (steps.take k).sum) := by
  constructor
  · intro all
    exact ⟨by simpa using all 0,fun k => by simpa [add_assoc] using all (k + 1)⟩
  · rintro ⟨first,all⟩ k
    cases k with
    | zero => simpa using first
    | succ k => simpa [add_assoc] using all k

def InInt32 (x : ℤ) : Prop := -2 ^ 31 ≤ x ∧ x < 2 ^ 31

private theorem int32_of_in {x : ℤ} (fits : InInt32 x) : int32 x = some x := if_pos fits
private theorem int32_of_not {x : ℤ} (large : ¬InInt32 x) : int32 x = none := if_neg large

private theorem InInt32.of_scaled {x q : ℤ} (positive : 0 < q) (fits : InInt32 (x * q)) : InInt32 x := by
  obtain ⟨low,high⟩ := fits
  constructor
  · by_contra less
    nlinarith
  · by_contra more
    nlinarith

private theorem round_isSome {q : ℤ} (positive : 0 < q) (x y : ℤ) (next : ℤ → ℤ → Option (List Coordinate)) :
    (do
      let latitude ← int32 x
      let longitude ← int32 y
      let lon ← int32 (truncated (longitude * (q : ℚ)))
      let lat ← int32 (truncated (latitude * (q : ℚ)))
      let coordinates ← next latitude longitude
      some ((⟨lon,lat⟩ : Coordinate) :: coordinates)).isSome ↔ InInt32 (x * q) ∧ InInt32 (y * q) ∧ (next x y).isSome := by
  have scaled (z : ℤ) : truncated (z * (q : ℚ)) = z * q := by rw [← Int.cast_mul,truncated_intCast]
  by_cases first : InInt32 (x * q)
  · by_cases second : InInt32 (y * q)
    · rw [int32_of_in (first.of_scaled positive),int32_of_in (second.of_scaled positive)]
      cases rest : next x y <;> simp [scaled,int32_of_in first,int32_of_in second,first,second,rest]
    · cases int32 x <;> by_cases fits : InInt32 y <;> simp [scaled,int32_of_in,int32_of_not,second,fits]
  · by_cases fits : InInt32 x
    · rw [int32_of_in fits]
      cases int32 y with
      | none => simp [first]
      | some longitude => cases int32 (truncated (longitude * (q : ℚ))) <;> simp [scaled,int32_of_not first,first]
    · simp [int32_of_not fits,first]

private theorem decodeFrom_isSome {q : ℤ} (positive : 0 < q) {latitude longitude : ℤ} (polyline : List Char)
    (lat : InInt32 (latitude * q)) (lon : InInt32 (longitude * q)) : (decodeFrom q latitude longitude polyline).isSome ↔
      (∀ k, InInt32 ((latitude + (((differences polyline).map Prod.fst).take k).sum) * q)) ∧
      (∀ k, InInt32 ((longitude + (((differences polyline).map Prod.snd).take k).sum) * q)) := by
  fun_induction differences polyline generalizing latitude longitude with
  | case1 => simp [decodeFrom,lat,lon]
  | case2 c rest =>
    rename_i ih
    rw [decodeFrom,map_cons,map_cons,round_isSome positive,sums_cons (P := fun sum => InInt32 (sum * q)),
      sums_cons (P := fun sum => InInt32 (sum * q))]
    constructor
    · rintro ⟨nextLat,nextLon,decoded⟩
      obtain ⟨latitudes,longitudes⟩ := (ih nextLat nextLon).mp decoded
      exact ⟨⟨lat,latitudes⟩,⟨lon,longitudes⟩⟩
    · rintro ⟨⟨-,latitudes⟩,⟨-,longitudes⟩⟩
      have nextLat := latitudes 0
      have nextLon := longitudes 0
      rw [take_zero,sum_nil,add_zero] at nextLat nextLon
      exact ⟨nextLat,nextLon,(ih nextLat nextLon).mpr ⟨latitudes,longitudes⟩⟩

/-- The characters of `qi::char_("a-zA-Z0-9_.--[]{}@?|\\%~`^")`, in which the range from the point to the minus is empty. -/
def polyline_chars (c : Char) : Bool := c.isAlphanum || "_-[]\x7b\x7d@?|\\%~`^".toList.contains c

/-- `qi::lit(literal) > +polyline_chars > ')'`: nothing where the rule does not start, an error where an expectation fails. -/
def polylineText (literal input : List Char) : Except Unit (Option (List Char × List Char)) :=
  if literal.isPrefixOf input then
    let text := (input.drop literal.length).takeWhile polyline_chars
    match (input.drop literal.length).drop text.length with
    | ')' :: rest => if text.isEmpty then .error () else .ok (some (text,rest))
    | _ => .error ()
  else .ok none

/-- Decoding a polyline overflows exactly if the coordinates that it stands for do not fit, once they are scaled. -/
theorem decodePolyline_isSome_iff (polyline : List Char) :
    ((decodePolyline 1000000 polyline).isSome ↔
      SumsWithin (-2 ^ 31) (2 ^ 31 - 1) ((differences polyline).map Prod.fst) ∧
        SumsWithin (-2 ^ 31) (2 ^ 31 - 1) ((differences polyline).map Prod.snd)) ∧
    ((decodePolyline 100000 polyline).isSome ↔
      SumsWithin (-214748364) 214748364 ((differences polyline).map Prod.fst) ∧
        SumsWithin (-214748364) 214748364 ((differences polyline).map Prod.snd)) := by
  have fine : COORDINATE_PRECISION / (1000000 : ℕ) = (1 : ℤ) := by norm_num [COORDINATE_PRECISION]
  have coarse : COORDINATE_PRECISION / (100000 : ℕ) = (10 : ℤ) := by norm_num [COORDINATE_PRECISION]
  have one (x : ℤ) : InInt32 (x * 1) ↔ -2 ^ 31 ≤ x ∧ x ≤ 2 ^ 31 - 1 := by rw [InInt32]; omega
  have ten (x : ℤ) : InInt32 (x * 10) ↔ -214748364 ≤ x ∧ x ≤ 214748364 := by rw [InInt32]; omega
  have zero (q : ℤ) : InInt32 (0 * q) := by rw [InInt32]; omega
  rw [decodePolyline,fine,decodeFrom_isSome (by decide) polyline (zero 1) (zero 1),decodePolyline,coarse,
    decodeFrom_isSome (by decide) polyline (zero 10) (zero 10)]
  constructor
  · simp only [zero_add,one,SumsWithin]
  · simp only [zero_add,ten,SumsWithin]

/-- Twice the largest difference, in a request. -/
theorem largest_difference_twice : ¬∀ input text rest : List Char,
    polylineText "polyline6(".toList input = .ok (some (text,rest)) → (decodePolyline 1000000 text).isSome := by
  intro total
  have parsed : polylineText "polyline6(".toList "polyline6(\x7d~~~~~B?\x7d~~~~~B?)".toList =
      .ok (some ("\x7d~~~~~B?\x7d~~~~~B?".toList,[])) := by decide
  have first : decode_polyline_integer "\x7d~~~~~B?\x7d~~~~~B?".toList = (2147483647,"?\x7d~~~~~B?".toList) := by decide
  have second : decode_polyline_integer "?\x7d~~~~~B?".toList = (0,"\x7d~~~~~B?".toList) := by decide
  have third : decode_polyline_integer "\x7d~~~~~B?".toList = (2147483647,"?".toList) := by decide
  have fine : COORDINATE_PRECISION / (1000000 : ℕ) = (1 : ℤ) := by norm_num [COORDINATE_PRECISION]
  have decoded := total _ _ _ parsed
  rw [decodePolyline,fine,decodeFrom_eq _ _ _ (by decide),first] at decoded
  dsimp only at decoded
  rw [second,round_isSome (by decide)] at decoded
  have decoded := decoded.2.2
  rw [decodeFrom_eq _ _ _ (by decide),third] at decoded
  dsimp only at decoded
  rw [round_isSome (by decide)] at decoded
  exact absurd decoded.1.2 (by decide)

end Osrm.Polyline
