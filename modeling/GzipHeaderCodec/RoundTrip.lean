import GzipHeaderCodec.Groups
import GzipHeaderCodec.Accept

/-! `parseNameValues` on the image `encode` writes (`parseNameValues_serialize`), the values
under one name, and the inputs on which the round trip fails. -/
namespace GzipHeaderCodec

theorem intercalate_nul_cons (a : Bytes) (vs : List Bytes) :
    [0].intercalate (a :: vs) = a ++ vs.flatMap (0 :: ·) := by
  induction vs generalizing a with
  | nil => simp [List.intercalate]
  | cons v vs ih =>
    rw [List.intercalate, List.intersperse_cons_cons, List.flatten_cons, List.flatten_cons,
      ← List.intercalate, ih]
    simp

namespace Run

def entry (r : Run) : Entry := ⟨r.name.map toLowerAscii, r.joined⟩

/-- What the parser returns for a run: the lowercased name and the first value, then a
multi-valued name/value pair for each further value. -/
def pieces (r : Run) : List HeaderPiece :=
  ⟨r.name.map toLowerAscii, false, false⟩ :: ⟨r.first, false, false⟩ ::
    pairs (r.name.map toLowerAscii) r.rest

def counter (r : Run) : Nat := pairBytes (r.name.map toLowerAscii) r.rest

theorem image_eq (w : Nat) (r : Run) : r.image w = r.entry.bytes w := by
  simp [image, entry, Entry.bytes]

theorem joined_eq (r : Run) : r.joined = [0].intercalate r.values := by
  have h : ∀ (a : Bytes) (vs : List Bytes),
      vs.foldl (fun acc v => acc ++ 0 :: v) a = a ++ vs.flatMap (0 :: ·) := by
    intro a vs
    induction vs generalizing a with
    | nil => simp
    | cons v vs ih => simp [ih]
  rw [joined, values, h, intercalate_nul_cons]

theorem entry_segments {r : Run} (hv : ∀ v ∈ r.values, 0 ∉ v) : r.entry.segments = r.values := by
  rw [Entry.segments, entry, joined_eq]
  exact List.splitOn_intercalate r.values 0 hv (List.cons_ne_nil _ _)

theorem entry_pieces {r : Run} (hv : ∀ v ∈ r.values, 0 ∉ v) : r.entry.pieces = r.pieces := by
  simp only [Entry.pieces, entry_segments hv, values, List.headD_cons, List.tail_cons]
  rfl

theorem entry_counter {r : Run} (hv : ∀ v ∈ r.values, 0 ∉ v) : r.entry.counter = r.counter := by
  simp only [Entry.counter, entry_segments hv, values, List.tail_cons]
  rfl

theorem mem_headers_of_mem_values {r : Run} {v : Bytes} (hv : v ∈ r.values) :
    ⟨r.code, r.name, v⟩ ∈ r.headers :=
  List.mem_map_of_mem _ hv

end Run

/-- The headers of the round trip: nonempty printable names, nonempty NUL-free values. -/
structure Encodable (hs : List Header) : Prop where
  name_ne_nil : ∀ h ∈ hs, h.name ≠ []
  name_printable : ∀ h ∈ hs, ∀ c ∈ h.name, 0x20 ≤ c ∧ c ≤ 0x7e
  value_ne_nil : ∀ h ∈ hs, h.value ≠ []
  value_nul_free : ∀ h ∈ hs, 0 ∉ h.value

/-- The size limits of the round trip, on the runs of a sort outcome: the count, each name and
each joined value fit their `W`-byte fields, and the slot bound `2 N` fits a `uint32_t`. -/
structure Fits (w : Nat) (sorted : List Header) : Prop where
  count_lt : (runs sorted).length < 256 ^ w
  slots_lt : 2 * (runs sorted).length < 2 ^ 32
  name_lt : ∀ r ∈ runs sorted, r.name.length < 256 ^ w
  joined_lt : ∀ r ∈ runs sorted, r.joined.length < 256 ^ w

section Encodable

variable {w : Nat} {hs : List Header} (s : SortOutcome hs) (he : Encodable hs)

include he in
theorem Encodable.run_nul_free {r : Run} (hr : r ∈ runs s.sorted) : ∀ v ∈ r.values, 0 ∉ v :=
  fun _ hv => he.value_nul_free _
    (s.perm.subset (mem_of_mem_runs hr (Run.mem_headers_of_mem_values hv)))

include he in
theorem Encodable.run_valid (hf : Fits w s.sorted) {r : Run} (hr : r ∈ runs s.sorted) :
    r.entry.Valid w := by
  have hfirst : ⟨r.code, r.name, r.first⟩ ∈ hs :=
    s.perm.subset (mem_of_mem_runs hr (Run.mem_headers_of_mem_values (List.mem_cons_self _ _)))
  have hvalue : ∀ v ∈ r.values, v ≠ [] := fun _ hv => he.value_ne_nil _
    (s.perm.subset (mem_of_mem_runs hr (Run.mem_headers_of_mem_values hv)))
  refine ⟨?_, ?_, by simpa [Run.entry] using hf.name_lt r hr, hf.joined_lt r hr, ?_⟩
  · simpa [Run.entry] using he.name_ne_nil _ hfirst
  · simp only [Run.entry, List.mem_map]
    rintro _ ⟨c, hc, rfl⟩
    obtain ⟨h1, h2⟩ := he.name_printable _ hfirst c hc
    exact invalidNameChar_eq_false_iff.mp (invalidNameChar_toLowerAscii h1 h2)
  · right
    rw [Run.entry_segments (he.run_nul_free s hr)]
    exact fun hnil => hvalue [] hnil rfl

include he in
/-- The round trip of the Name/Value block: `parseNameValues` reads back the image `encode`
writes, run by run, lowercased name and values in sort order. -/
theorem parseNameValues_serialize (other : Nat) (hf : Fits w s.sorted) :
    ∃ image, serialize w other s.sorted = .ok image ∧
      parseNameValues w image =
        .ok ((runs s.sorted).flatMap Run.pieces, ((runs s.sorted).map Run.counter).sum) := by
  refine ⟨_, serialize_eq fun h hh =>
    .inr (he.name_ne_nil h (s.perm.subset (List.mem_of_mem_head? hh))), ?_⟩
  have hes : ∀ e ∈ (runs s.sorted).map Run.entry, e.Valid w := by
    simp only [List.mem_map]
    rintro _ ⟨r, hr, rfl⟩
    exact he.run_valid s hf hr
  have h := parseNameValues_entries [] hes (by simpa using hf.count_lt)
    (by simpa using hf.slots_lt)
  have himage : ((runs s.sorted).map Run.entry).flatMap (Entry.bytes w) =
      (runs s.sorted).flatMap (Run.image w) := by
    rw [List.flatMap_map]
    exact congrArg _ (funext fun r => (Run.image_eq w r).symm)
  rw [List.length_map, List.append_nil, himage] at h
  rw [h, List.flatMap_map, List.map_map]
  congr 2
  · exact List.flatMap_congr fun r hr => Run.entry_pieces (he.run_nul_free s hr)
  · exact congrArg List.sum (List.map_congr_left fun r hr => Run.entry_counter (he.run_nul_free s hr))

/- Reading the values back by name -/

def piecePairs : List HeaderPiece → List (Bytes × Bytes)
  | n :: v :: ps => (n.str, v.str) :: piecePairs ps
  | _ => []

/-- The values a piece list holds under the name `x`, in order. -/
def valuesUnder (x : Bytes) (ps : List HeaderPiece) : List Bytes :=
  ((piecePairs ps).filter fun p => p.1 = x).map Prod.snd

@[simp] theorem piecePairs_cons_cons (n v : HeaderPiece) (ps : List HeaderPiece) :
    piecePairs (n :: v :: ps) = (n.str, v.str) :: piecePairs ps := rfl

theorem piecePairs_pairs_append (n : Bytes) (vs : List Bytes) (ps : List HeaderPiece) :
    piecePairs (pairs n vs ++ ps) = vs.map (n, ·) ++ piecePairs ps := by
  induction vs with
  | nil => rfl
  | cons v vs ih => simp only [pairs_cons, List.cons_append, piecePairs_cons_cons, ih, List.map_cons]

theorem piecePairs_runs (hs : List Header) :
    piecePairs ((runs hs).flatMap Run.pieces) = hs.map fun h => (h.name.map toLowerAscii, h.value) := by
  have h : ∀ rs : List Run, piecePairs (rs.flatMap Run.pieces) =
      rs.flatMap fun r => r.values.map (r.name.map toLowerAscii, ·) := by
    intro rs
    induction rs with
    | nil => rfl
    | cons r rs ih =>
      simp only [List.flatMap_cons, Run.pieces, List.cons_append, piecePairs_cons_cons,
        piecePairs_pairs_append, List.append_assoc, ih, Run.values, List.map_cons]
  conv_rhs => rw [← runs_flatten hs]
  rw [h, List.map_flatMap]
  simp [Run.headers, Function.comp_def]

end Encodable

def sameNameHeaders : List Header := [⟨1, [0x61], [0x31]⟩, ⟨1, [0x61], [0x32]⟩]

/-- An order `std::sort` may leave them in: they are equal under `Header::operator<`, and the
sort keeps no order among equal elements. -/
def SortOutcome.swapped : SortOutcome sameNameHeaders where
  sorted := [⟨1, [0x61], [0x32]⟩, ⟨1, [0x61], [0x31]⟩]
  perm := List.Perm.swap _ _ _
  ordered := by decide

/-- Two headers `a` with empty values, which HTTP allows: `encode` joins them into the value
`00`, both of whose segments are empty, and the parser refuses it. -/
theorem serialize_empty_values_rejected (other code : Nat)
    (s : SortOutcome (List.replicate 2 ⟨code, [0x61], []⟩)) :
    serialize 2 other s.sorted = .ok [0, 1, 0, 1, 0x61, 0, 1, 0] ∧
    parseNameValues 2 [0, 1, 0, 1, 0x61, 0, 1, 0] = .error (.error .emptyHeaderValue) := by
  rw [List.perm_replicate.mp s.perm, List.replicate_succ, List.replicate_one,
    serialize_pair (List.cons_ne_nil _ _)]
  exact ⟨rfl, rfl⟩

/-- The name of header `i` of the wrap: the base-94 digits of `i + 1` as the printable bytes
`0x21 + d`. -/
def wrapName (i : Nat) : Bytes := (Nat.digits 94 (i + 1)).map fun d => UInt8.ofNat (d + 0x21)

/-- `2^31` headers of one code with the names `wrapName i` and the value `b`. -/
def wrapHeaders (code : Nat) : List Header :=
  (List.range (2 ^ 31)).map fun i => ⟨code, wrapName i, [0x62]⟩

theorem wrapName_toNat (i : Nat) : (wrapName i).map (fun c => c.toNat - 0x21) = Nat.digits 94 (i + 1) := by
  rw [wrapName, List.map_map]
  refine (List.map_congr_left fun d hd => ?_).trans (List.map_id _)
  have := Nat.digits_lt_base (by norm_num) hd
  simp only [Function.comp_apply, UInt8.toNat_ofNat_of_lt (show d + 0x21 < UInt8.size by
    simp only [UInt8.size]; omega), Nat.add_sub_cancel, id]

theorem wrapName_injective {i j : Nat} (h : wrapName i = wrapName j) : i = j :=
  Nat.succ_injective (Nat.digits.injective 94 (by rw [← wrapName_toNat, ← wrapName_toNat, h]))

theorem wrapName_ne_nil (i : Nat) : wrapName i ≠ [] := fun h =>
  Nat.digits_ne_nil_iff_ne_zero.mpr (Nat.succ_ne_zero i) (List.map_eq_nil_iff.mp h)

theorem wrapName_printable (i : Nat) : ∀ c ∈ wrapName i, 0x20 ≤ c ∧ c ≤ 0x7e := by
  intro c hc
  obtain ⟨d, hd, rfl⟩ := List.mem_map.mp hc
  have := Nat.digits_lt_base (by norm_num) hd
  simp only [uint8_le_iff, uint8_toNat_lit, UInt8.toNat_ofNat_of_lt (show d + 0x21 < UInt8.size by
    simp only [UInt8.size]; omega)]
  omega

theorem wrapName_length_le {i : Nat} (hi : i < 2 ^ 31) : (wrapName i).length ≤ 5 := by
  rw [wrapName, List.length_map, Nat.digits_len 94 _ (by norm_num) (Nat.succ_ne_zero i)]
  exact Nat.log_lt_of_lt_pow (Nat.succ_ne_zero i) (by omega)

theorem mem_wrapHeaders {code : Nat} {h : Header} (hh : h ∈ wrapHeaders code) :
    ∃ i < 2 ^ 31, h = ⟨code, wrapName i, [0x62]⟩ := by
  obtain ⟨i, hi, rfl⟩ := List.mem_map.mp hh
  exact ⟨i, List.mem_range.mp hi, rfl⟩

theorem encodable_wrapHeaders (code : Nat) : Encodable (wrapHeaders code) := by
  refine ⟨?_, ?_, ?_, ?_⟩ <;> intro h hh <;> obtain ⟨i, -, rfl⟩ := mem_wrapHeaders hh
  · exact wrapName_ne_nil i
  · exact wrapName_printable i
  · exact List.cons_ne_nil _ _
  · exact (by decide : (0 : UInt8) ∉ [0x62])

/-- The names are distinct, so every header is a run of its own. -/
theorem runs_wrapHeaders {code : Nat} (s : SortOutcome (wrapHeaders code)) :
    runs s.sorted = s.sorted.map Run.single :=
  runs_of_nodup <| (s.perm.map Header.key).nodup_iff.mpr <| by
    rw [wrapHeaders, List.map_map]
    exact (List.nodup_range _).map fun i j h => wrapName_injective (congrArg (fun k => k.2) h)

theorem length_wrapHeaders {code : Nat} (s : SortOutcome (wrapHeaders code)) :
    s.sorted.length = 2 ^ 31 := by
  rw [s.perm.length_eq, wrapHeaders, List.length_map, List.length_range]

/-- At `W = 4`, `2^31` headers with distinct printable names of at most five bytes meet every
limit of the round trip but the slot bound. The image, at most `4 + 14 * 2^31` bytes, holds
`2^31` entries, `2^32` pieces by the law, and the parser, its slot bound `numNV * 2` wrapped to
`0`, returns none. -/
theorem roundTrip_count_wraps (code other : Nat) (s : SortOutcome (wrapHeaders code)) :
    Encodable (wrapHeaders code) ∧ (∀ h ∈ wrapHeaders code, h.name.length ≤ 5) ∧
    (runs s.sorted).length = 2 ^ 31 ∧
    (∀ r ∈ runs s.sorted, r.name.length < 256 ^ 4 ∧ r.joined.length < 256 ^ 4) ∧
    ((runs s.sorted).flatMap Run.pieces).length = 2 ^ 32 ∧
    ∃ image, serialize 4 other s.sorted = .ok image ∧ image.length ≤ 4 + 14 * 2 ^ 31 ∧
      parseNameValues 4 image = .ok ([], 0) := by
  have hmem := fun h (hh : h ∈ s.sorted) => mem_wrapHeaders (s.perm.subset hh)
  have hruns := runs_wrapHeaders s
  have hlen := length_wrapHeaders s
  refine ⟨encodable_wrapHeaders code, fun h hh => ?_, by rw [hruns, List.length_map, hlen], ?_, ?_, ?_⟩
  · obtain ⟨i, hi, rfl⟩ := mem_wrapHeaders hh
    exact wrapName_length_le hi
  · rw [hruns]
    intro r hr
    obtain ⟨h, hh, rfl⟩ := List.mem_map.mp hr
    obtain ⟨i, hi, rfl⟩ := hmem h hh
    have := wrapName_length_le hi
    simp [Run.single, Run.joined]
    omega
  · rw [hruns, List.flatMap_map, List.length_flatMap,
      show (List.length ∘ fun h => (Run.single h).pieces) = fun _ => 2 from rfl,
      List.map_const', List.sum_replicate, hlen]
    rfl
  refine ⟨_, serialize_eq fun h hh => ?_, ?_, ?_⟩
  · obtain ⟨i, -, rfl⟩ := hmem h (List.mem_of_mem_head? hh)
    exact .inr (wrapName_ne_nil i)
  · -- each header is written as an entry of at most `8 + 5 + 1` bytes
    have hsum := List.sum_le_card_nsmul (s.sorted.map fun h => ((Run.single h).image 4).length) 14
      fun x hx => by
        obtain ⟨h, hh, rfl⟩ := List.mem_map.mp hx
        obtain ⟨i, hi, rfl⟩ := hmem h hh
        have := wrapName_length_le hi
        simp only [Run.image_length, Run.single, Run.values, List.map_cons, List.map_nil,
          List.sum_cons, List.sum_nil, List.length_cons, List.length_nil, List.length_singleton]
        omega
    rw [List.length_map, hlen, smul_eq_mul] at hsum
    rw [List.length_append, appendSize_length, hruns, List.flatMap_map, List.length_flatMap]
    exact Nat.add_le_add_left (by simpa [Function.comp_def, Nat.mul_comm] using hsum) 4
  · rw [hruns, List.length_map, hlen]
    simp [parseNameValues, List.append_assoc, parseSize_appendSize, parseSlots, Except.map]

end GzipHeaderCodec
