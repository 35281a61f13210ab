import GzipHeaderCodec.Parse

/-! The Name/Value grammar the parser reads, entries `W(len n) n W(len v) v`, and the slot loop
read two slots at a time (`parseSlots_even`, `parseNameValues_eq`). -/
namespace GzipHeaderCodec

/-- One entry of the Name/Value layout. -/
structure Entry where
  name : Bytes
  value : Bytes
deriving DecidableEq, Repr

/-- A byte the grammar allows in a name: printable and not an uppercase letter. -/
def NameByte (c : UInt8) : Prop := 0x20 ≤ c ∧ c ≤ 0x7e ∧ ¬(0x41 ≤ c ∧ c ≤ 0x5a)

theorem invalidNameChar_eq_false_iff {c : UInt8} : invalidNameChar c = false ↔ NameByte c := by
  simp only [invalidNameChar, NameByte, Bool.or_eq_false_iff, decide_eq_false_iff_not,
    Bool.and_eq_false_imp, decide_eq_true_eq, uint8_lt_iff, uint8_le_iff, gt_iff_lt,
    uint8_toNat_lit]
  omega

namespace Entry

def bytes (w : Nat) (e : Entry) : Bytes :=
  appendSize w e.name.length ++ e.name ++ appendSize w e.value.length ++ e.value

def segments (e : Entry) : List Bytes := e.value.splitOn 0

/-- An entry the grammar admits in a `w`-byte layout. -/
structure Valid (w : Nat) (e : Entry) : Prop where
  name_ne_nil : e.name ≠ []
  name_bytes : ∀ c ∈ e.name, NameByte c
  name_fits : e.name.length < 256 ^ w
  value_fits : e.value.length < 256 ^ w
  segments_ne_nil : 0 ∉ e.value ∨ [] ∉ e.segments

/-- The pieces the parser emits for the entry: the name and the first segment, then a
multi-valued name/value pair for each further segment. -/
def pieces (e : Entry) : List HeaderPiece :=
  ⟨e.name, false, false⟩ :: ⟨e.segments.headD [], false, false⟩ :: pairs e.name e.segments.tail

def counter (e : Entry) : Nat := pairBytes e.name e.segments.tail

end Entry

/-- The grammar's verdict on the entry at the front of `r`, its checks in scan order: the name
length, an empty name, the name bytes, the name's characters, the value length, the value
bytes, an empty segment. -/
def entryVerdict (w : Nat) (r : Bytes) : Except HeaderDecodeError (Entry × Bytes) :=
  match parseSize w r with
  | none => .error .badEncoding
  | some (nlen, r1) =>
    if nlen = 0 then .error .emptyHeaderName
    else if r1.length < nlen then .error .badEncoding
    else if (r1.take nlen).any invalidNameChar then .error .invalidHeaderValue
    else match parseSize w (r1.drop nlen) with
      | none => .error .badEncoding
      | some (vlen, r3) =>
        if r3.length < vlen then .error .badEncoding
        else if 0 ∈ r3.take vlen ∧ [] ∈ (r3.take vlen).splitOn 0 then .error .emptyHeaderValue
        else .ok (⟨r1.take nlen, r3.take vlen⟩, r3.drop vlen)

def readEntries (w : Nat) : Nat → Bytes → Except HeaderDecodeError (List Entry × Bytes)
  | 0, r => .ok ([], r)
  | m + 1, r => (entryVerdict w r).bind fun (e, r') =>
      (readEntries w m r').map fun (es, r'') => (e :: es, r'')

def ParseState.advance (st : ParseState) (es : List Entry) (rest : Bytes) : ParseState :=
  { cursor := rest, outHeaders := st.outHeaders ++ es.flatMap Entry.pieces, headerName := none,
    expanded := st.expanded + (es.map Entry.counter).sum }

@[simp] theorem ParseState.advance_cursor (st : ParseState) (es : List Entry) (rest : Bytes) :
    (st.advance es rest).cursor = rest := rfl

@[simp] theorem ParseState.advance_headerName (st : ParseState) (es : List Entry) (rest : Bytes) :
    (st.advance es rest).headerName = none := rfl

theorem ParseState.advance_advance (st : ParseState) (e : Entry) (es : List Entry)
    (r r' : Bytes) : (st.advance [e] r).advance es r' = st.advance (e :: es) r' := by
  simp [ParseState.advance, Nat.add_assoc]

theorem mapError_bind {ε ε' α β : Type} (g : ε → ε') (x : Except ε α) (f : α → Except ε β) :
    (x.bind f).mapError g = (x.mapError g).bind fun a => (f a).mapError g := by
  cases x <;> rfl

theorem mapError_eq_ok {ε ε' α : Type} {f : ε → ε'} {x : Except ε α} {a : α} :
    x.mapError f = .ok a ↔ x = .ok a := by
  cases x <;> simp [Except.mapError]

theorem parseSlots_add (w a b i : Nat) (st : ParseState) :
    parseSlots w (a + b) i st = (parseSlots w a i st).bind (parseSlots w b (i + a)) := by
  induction a generalizing i st with
  | zero => simp [parseSlots, Except.bind]
  | succ a ih =>
    rw [Nat.add_right_comm, parseSlots, parseSlots]
    cases parseSlot w i st with
    | error e => rfl
    | ok st' => simp only [Except.bind, ih, Nat.add_assoc, Nat.add_comm 1 a]

theorem parseSlot_name {w i len : Nat} {st : ParseState} {cur : Bytes} (hi : i % 2 = 0)
    (h : parseSize w st.cursor = some (len, cur)) (hz : len ≠ 0) (hle : len ≤ cur.length)
    (hok : (cur.take len).any invalidNameChar = false) :
    parseSlot w i st =
      .ok { st with cursor := cur.drop len,
                    outHeaders := st.outHeaders ++ [⟨cur.take len, false, false⟩],
                    headerName := some ⟨cur.take len, false, false⟩ } := by
  simp [parseSlot, h, hz, hle, hi, hok]

theorem parseSlot_value {w i len : Nat} {st : ParseState} {cur : Bytes} {np : HeaderPiece}
    (hi : i % 2 ≠ 0) (hn : st.headerName = some np) (h : parseSize w st.cursor = some (len, cur))
    (hle : len ≤ cur.length) :
    parseSlot w i st = match splitValue np.str (cur.take len) with
      | .error e => .error (.error e)
      | .ok (v, extra, added) =>
        .ok { cursor := cur.drop len,
              outHeaders := st.outHeaders ++ ⟨v, false, false⟩ :: extra,
              headerName := none,
              expanded := st.expanded + added } := by
  rcases hs : splitValue np.str (cur.take len) with e | ⟨v, extra, added⟩ <;>
    simp [parseSlot, h, hn, hle, hi, hs]

theorem parseSlots_two {w i : Nat} {st : ParseState} (hi : i % 2 = 0) (hn : st.headerName = none) :
    (parseSlots w 2 i st).mapError ParseExit.surface =
      (entryVerdict w st.cursor).map fun (e, rest) => st.advance [e] rest := by
  have hi' : (i + 1) % 2 ≠ 0 := by omega
  simp only [parseSlots, entryVerdict]
  rcases h1 : parseSize w st.cursor with _ | ⟨len, cur⟩
  · simp [parseSlot, h1, Except.bind, Except.mapError, ParseExit.surface, Except.map]
  by_cases hz : len = 0
  · simp [parseSlot, h1, hz, hn, Except.bind, Except.mapError, ParseExit.surface, Except.map]
  by_cases hle : len ≤ cur.length
  swap
  · simp [parseSlot, h1, hz, hle, Except.bind, Except.mapError, ParseExit.surface, Except.map,
      Nat.lt_of_not_le hle]
  by_cases hbad : (cur.take len).any invalidNameChar
  · simp [parseSlot, h1, hz, hle, hi, hbad, Except.bind, Except.mapError, ParseExit.surface,
      Except.map, Nat.not_lt.mpr hle]
  rw [Bool.not_eq_true] at hbad
  rw [parseSlot_name hi h1 hz hle hbad]
  simp only [Except.bind, hz, if_false, Nat.not_lt.mpr hle, hbad]
  rcases h2 : parseSize w (cur.drop len) with _ | ⟨vlen, cur'⟩
  · simp [parseSlot, h2, Except.mapError, ParseExit.surface, Except.map]
  by_cases hvle : vlen ≤ cur'.length
  swap
  · simp [parseSlot, h2, hvle, Except.mapError, ParseExit.surface, Except.map,
      Nat.lt_of_not_le hvle]
  rw [parseSlot_value hi' rfl h2 hvle, splitValue_eq]
  by_cases hseg : 0 ∈ cur'.take vlen ∧ [] ∈ (cur'.take vlen).splitOn 0
  · simp [hseg, Except.mapError, ParseExit.surface, Except.map, Nat.not_lt.mpr hvle]
  · simp [hseg, Except.mapError, Except.map, ParseState.advance, Entry.pieces, Entry.counter,
      Entry.segments, Nat.not_lt.mpr hvle, parseSlots]

theorem parseSlots_even {w i : Nat} (m : Nat) {st : ParseState} (hi : i % 2 = 0)
    (hn : st.headerName = none) :
    (parseSlots w (2 * m) i st).mapError ParseExit.surface =
      (readEntries w m st.cursor).map fun (es, rest) => st.advance es rest := by
  induction m generalizing i st with
  | zero =>
    obtain ⟨cur, out, name, ex⟩ := st
    simp_all [parseSlots, readEntries, ParseState.advance, Except.map, Except.mapError]
  | succ m ih =>
    rw [Nat.mul_succ, Nat.add_comm, parseSlots_add, mapError_bind, parseSlots_two hi hn,
      readEntries]
    cases entryVerdict w st.cursor with
    | error e => rfl
    | ok er =>
      obtain ⟨e, r⟩ := er
      simp only [Except.map, Except.bind]
      rw [ih (by omega) rfl, ParseState.advance_cursor]
      cases readEntries w m r <;> simp [Except.map, ParseState.advance_advance]

theorem parseNameValues_eq (w : Nat) (image : Bytes) :
    (parseNameValues w image).mapError ParseExit.surface =
      match parseSize w image with
      | none => .error .badEncoding
      | some (numNV, cur) => (readEntries w (numNV % 2 ^ 31) cur).map fun (es, _) =>
          (es.flatMap Entry.pieces, (es.map Entry.counter).sum) := by
  unfold parseNameValues
  rcases parseSize w image with _ | ⟨numNV, cur⟩
  · rfl
  · have h := @parseSlots_even w 0 (numNV % 2 ^ 31) ⟨cur, [], none, 0⟩ rfl rfl
    rw [show 2 * (numNV % 2 ^ 31) = numNV * 2 % 2 ^ 32 by omega] at h
    simp only
    cases hp : parseSlots w (numNV * 2 % 2 ^ 32) 0 ⟨cur, [], none, 0⟩ <;>
      cases hr : readEntries w (numNV % 2 ^ 31) cur <;>
      simp_all [Except.map, Except.mapError, ParseState.advance]

end GzipHeaderCodec
