import GzipHeaderCodec.Grammar

/-! What `parseNameValues` accepts and refuses: the parser's grammar (`parseNameValues_grammar`),
the count it really reads, and the size its copy branch allocates. -/
namespace GzipHeaderCodec

theorem any_invalidNameChar_eq_false {name : Bytes} :
    name.any invalidNameChar = false ↔ ∀ c ∈ name, NameByte c := by
  simp [List.any_eq_false, ← invalidNameChar_eq_false_iff]

theorem entryVerdict_eq_ok {w : Nat} {r rest : Bytes} {e : Entry} :
    entryVerdict w r = .ok (e, rest) ↔ r = e.bytes w ++ rest ∧ e.Valid w := by
  constructor
  · intro h
    unfold entryVerdict at h
    rcases h1 : parseSize w r with _ | ⟨nlen, r1⟩ <;> simp only [h1] at h
    · cases h
    obtain ⟨hr, hnfit⟩ := parseSize_eq_some h1
    by_cases hz : nlen = 0 <;> simp only [hz, if_true, if_false] at h
    · cases h
    by_cases hlt : r1.length < nlen <;> simp only [hlt, if_true, if_false] at h
    · cases h
    by_cases hbad : (r1.take nlen).any invalidNameChar <;> simp only [hbad, if_true] at h
    · cases h
    rcases h2 : parseSize w (r1.drop nlen) with _ | ⟨vlen, r3⟩ <;> simp only [h2] at h
    · cases h
    obtain ⟨hr1, hvfit⟩ := parseSize_eq_some h2
    by_cases hvlt : r3.length < vlen <;> simp only [hvlt, if_true, if_false] at h
    · cases h
    by_cases hseg : 0 ∈ r3.take vlen ∧ [] ∈ (r3.take vlen).splitOn 0 <;>
      simp only [hseg, if_true, if_false] at h
    · cases h
    obtain ⟨rfl, rfl⟩ := Prod.mk.inj (Except.ok.inj h)
    have hnl : (r1.take nlen).length = nlen := by simp; omega
    have hvl : (r3.take vlen).length = vlen := by simp; omega
    refine ⟨?_, ⟨?_, ?_, by simpa [hnl] using hnfit, by simpa [hvl] using hvfit, not_and_or.mp hseg⟩⟩
    · rw [hr, ← List.take_append_drop nlen r1, hr1, ← List.take_append_drop vlen r3]
      simp [Entry.bytes, hnl, hvl]
    · exact fun hnil => hz (by simpa [hnl] using congrArg List.length hnil)
    · exact any_invalidNameChar_eq_false.mp (by simpa using hbad)
  · rintro ⟨rfl, hv⟩
    obtain ⟨name, value⟩ := e
    have hn0 : name.length ≠ 0 := fun h => hv.name_ne_nil (List.eq_nil_of_length_eq_zero h)
    have hbad : name.any invalidNameChar = false := any_invalidNameChar_eq_false.mpr hv.name_bytes
    have hseg : ¬(0 ∈ value ∧ [] ∈ value.splitOn 0) := not_and_or.mpr hv.segments_ne_nil
    simp only [entryVerdict, Entry.bytes, List.append_assoc, parseSize_appendSize,
      Nat.mod_eq_of_lt hv.name_fits, hn0, if_false, List.length_append]
    simp [hbad, Nat.mod_eq_of_lt hv.value_fits, parseSize_appendSize, List.take_left',
      List.drop_left', hseg, Nat.not_lt.mpr (Nat.le_add_right _ _)]

theorem readEntries_eq_ok {w m : Nat} {r rest : Bytes} {es : List Entry} :
    readEntries w m r = .ok (es, rest) ↔
      r = es.flatMap (Entry.bytes w) ++ rest ∧ es.length = m ∧ ∀ e ∈ es, e.Valid w := by
  induction m generalizing r es with
  | zero =>
    cases es <;> simp [readEntries, eq_comm]
  | succ m ih =>
    simp only [readEntries]
    constructor
    · intro h
      rcases hv : entryVerdict w r with err | ⟨e, r'⟩ <;> rw [hv] at h
      · cases h
      rcases hr : readEntries w m r' with err | ⟨es', rest'⟩ <;>
        simp only [Except.bind, hr, Except.map] at h
      · cases h
      obtain ⟨rfl, rfl⟩ := Prod.mk.inj (Except.ok.inj h)
      obtain ⟨hr1, he⟩ := entryVerdict_eq_ok.mp hv
      obtain ⟨hr2, hlen, hes⟩ := ih.mp hr
      exact ⟨by simp [hr1, hr2], by simp [hlen], by simpa [he] using hes⟩
    · rintro ⟨hr, hlen, hes⟩
      obtain ⟨e, es', rfl⟩ := List.exists_cons_of_length_eq_add_one hlen
      rw [entryVerdict_eq_ok.mpr ⟨by simpa using hr, hes e (List.mem_cons_self _ _)⟩]
      simp only [Except.bind]
      rw [ih.mpr ⟨rfl, by simpa using hlen, fun x hx => hes x (List.mem_cons_of_mem _ hx)⟩]
      rfl

theorem readEntries_eq_error {w m : Nat} {r : Bytes} {err : HeaderDecodeError} :
    readEntries w m r = .error err ↔
      ∃ (es : List Entry) (rest : Bytes), es.length < m ∧ (∀ e ∈ es, e.Valid w) ∧
        r = es.flatMap (Entry.bytes w) ++ rest ∧ entryVerdict w rest = .error err := by
  induction m generalizing r with
  | zero => simp [readEntries]
  | succ m ih =>
    simp only [readEntries]
    constructor
    · intro h
      rcases hv : entryVerdict w r with err' | ⟨e, r'⟩ <;> rw [hv] at h
      · simp only [Except.bind, Except.error.injEq] at h
        exact ⟨[], r, by simp, by simp, by simp, by rw [hv, h]⟩
      rcases hr : readEntries w m r' with err' | ⟨es', rest'⟩ <;>
        simp only [Except.bind, hr, Except.map] at h
      · cases h
        obtain ⟨es, rest, hlen, hes, hr', hvr⟩ := ih.mp hr
        obtain ⟨hr1, he⟩ := entryVerdict_eq_ok.mp hv
        exact ⟨e :: es, rest, by simp [hlen], by simpa [he] using hes, by simp [hr1, hr'], hvr⟩
      · cases h
    · rintro ⟨es, rest, hlen, hes, rfl, hvr⟩
      cases es with
      | nil => simp [hvr, Except.bind]
      | cons e es =>
        rw [List.flatMap_cons, List.append_assoc,
          entryVerdict_eq_ok.mpr ⟨rfl, hes e (List.mem_cons_self _ _)⟩]
        simp only [Except.bind]
        rw [ih.mpr ⟨es, rest, by simpa using hlen, fun x hx => hes x (List.mem_cons_of_mem _ hx),
          rfl, hvr⟩]
        rfl

theorem parseNameValues_entries {w : Nat} {es : List Entry} (T : Bytes) (hes : ∀ e ∈ es, e.Valid w)
    (hfit : es.length < 256 ^ w) (hslots : 2 * es.length < 2 ^ 32) :
    parseNameValues w (appendSize w es.length ++ es.flatMap (Entry.bytes w) ++ T) =
      .ok (es.flatMap Entry.pieces, (es.map Entry.counter).sum) := by
  have h := parseNameValues_eq w (appendSize w es.length ++ es.flatMap (Entry.bytes w) ++ T)
  rw [List.append_assoc, parseSize_appendSize, Nat.mod_eq_of_lt hfit] at h
  dsimp only at h
  rw [Nat.mod_eq_of_lt (show es.length < 2 ^ 31 by omega), readEntries_eq_ok.mpr ⟨rfl, rfl, hes⟩] at h
  rw [List.append_assoc]
  cases hp : parseNameValues w (appendSize w es.length ++ (es.flatMap (Entry.bytes w) ++ T)) <;>
    simp_all [Except.mapError, Except.map]

theorem parseNameValues_ok_entries {w : Nat} {B : Bytes} {ps : List HeaderPiece} {c : Nat}
    (h : parseNameValues w B = .ok (ps, c)) :
    ∃ (N : Nat) (es : List Entry) (T : Bytes),
      B = appendSize w N ++ es.flatMap (Entry.bytes w) ++ T ∧ N < 256 ^ w ∧
      es.length = N % 2 ^ 31 ∧ (∀ e ∈ es, e.Valid w) ∧
      ps = es.flatMap Entry.pieces ∧ c = (es.map Entry.counter).sum := by
  have h' := parseNameValues_eq w B
  rw [h] at h'
  rcases hp : parseSize w B with _ | ⟨N, cur⟩ <;> simp only [hp] at h'
  · cases h'
  obtain ⟨hB, hfit⟩ := parseSize_eq_some hp
  rcases hr : readEntries w (N % 2 ^ 31) cur with err | ⟨es, T⟩ <;>
    simp only [hr, Except.map, Except.mapError] at h'
  · cases h'
  obtain ⟨hcur, hlen, hes⟩ := readEntries_eq_ok.mp hr
  obtain ⟨rfl, rfl⟩ := Prod.mk.inj (Except.ok.inj h').symm
  exact ⟨N, es, T, by rw [hB, hcur, List.append_assoc], hfit, hlen, hes, rfl, rfl⟩

theorem parseNameValues_ok_iff {w : Nat} {B : Bytes} {ps : List HeaderPiece} {c : Nat}
    (hN : 2 * readBE (B.take w) < 2 ^ 32) :
    (parseNameValues w B).mapError ParseExit.surface = .ok (ps, c) ↔
      ∃ (es : List Entry) (T : Bytes), B = appendSize w es.length ++ es.flatMap (Entry.bytes w) ++ T ∧
        es.length < 256 ^ w ∧ (∀ e ∈ es, e.Valid w) ∧
        ps = es.flatMap Entry.pieces ∧ c = (es.map Entry.counter).sum := by
  rw [mapError_eq_ok]
  constructor
  · intro h
    obtain ⟨N, es, T, rfl, hfit, hlen, hes, rfl, rfl⟩ := parseNameValues_ok_entries h
    rw [List.append_assoc, readBE_take_appendSize, Nat.mod_eq_of_lt hfit] at hN
    rw [Nat.mod_eq_of_lt (by omega)] at hlen
    exact ⟨es, T, by rw [hlen], hlen ▸ hfit, hes, rfl, rfl⟩
  · rintro ⟨es, T, rfl, hfit, hes, rfl, rfl⟩
    rw [List.append_assoc, readBE_take_appendSize, Nat.mod_eq_of_lt hfit] at hN
    exact parseNameValues_entries T hes hfit hN

theorem parseNameValues_error_iff {w : Nat} {B : Bytes} {err : HeaderDecodeError}
    (hN : 2 * readBE (B.take w) < 2 ^ 32) :
    (parseNameValues w B).mapError ParseExit.surface = .error err ↔
      (B.length < w ∧ err = .badEncoding) ∨
      ∃ (N : Nat) (es : List Entry) (R : Bytes), B = appendSize w N ++ es.flatMap (Entry.bytes w) ++ R ∧ N < 256 ^ w ∧
        es.length < N ∧ (∀ e ∈ es, e.Valid w) ∧ entryVerdict w R = .error err := by
  rw [parseNameValues_eq]
  rcases h : parseSize w B with _ | ⟨N, cur⟩
  · have hlt := parseSize_eq_none.mp h
    constructor
    · rintro ⟨⟩
      exact .inl ⟨hlt, rfl⟩
    · rintro (⟨-, rfl⟩ | ⟨N, es, R, rfl, -⟩)
      · rfl
      · simp at hlt
  obtain ⟨rfl, hfit⟩ := parseSize_eq_some h
  rw [readBE_take_appendSize, Nat.mod_eq_of_lt hfit] at hN
  dsimp only
  rw [Nat.mod_eq_of_lt (show N < 2 ^ 31 by omega)]
  constructor
  · intro herr
    rcases hr : readEntries w N cur with err' | ⟨es, T⟩ <;> rw [hr] at herr <;> cases herr
    obtain ⟨es, R, hlen, hes, rfl, hv⟩ := readEntries_eq_error.mp hr
    exact .inr ⟨N, es, R, (List.append_assoc _ _ _).symm, hfit, hlen, hes, hv⟩
  · rintro (⟨hlt, -⟩ | ⟨N', es, R, hB, hfit', hlen, hes, hv⟩)
    · simp at hlt
    · rw [hB, List.append_assoc, parseSize_appendSize, Nat.mod_eq_of_lt hfit'] at h
      obtain ⟨rfl, rfl⟩ := Prod.mk.inj (Option.some.inj h)
      rw [readEntries_eq_error.mpr ⟨es, R, hlen, hes, rfl, hv⟩]
      rfl

/-- The parser accepts exactly the Name/Value grammar. When the count `N` in the first `W`
bytes has `2 N < 2^32`, `parseNameValues` (with out-of-range reads surfaced as
`BAD_ENCODING`) succeeds exactly on `W(N) E_1 .. E_N T` with well-formed entries, returning
their pieces and expanded-bytes counter; otherwise it fails with the count's truncation or
with the first failing check of the first ill-formed entry. -/
theorem parseNameValues_grammar (w : Nat) (B : Bytes) (hN : 2 * readBE (B.take w) < 2 ^ 32) :
    (∀ ps c, (parseNameValues w B).mapError ParseExit.surface = .ok (ps, c) ↔
      ∃ (es : List Entry) (T : Bytes), B = appendSize w es.length ++ es.flatMap (Entry.bytes w) ++ T ∧
        es.length < 256 ^ w ∧ (∀ e ∈ es, e.Valid w) ∧
        ps = es.flatMap Entry.pieces ∧ c = (es.map Entry.counter).sum) ∧
    (∀ err, (parseNameValues w B).mapError ParseExit.surface = .error err ↔
      (B.length < w ∧ err = .badEncoding) ∨
      ∃ (N : Nat) (es : List Entry) (R : Bytes), B = appendSize w N ++ es.flatMap (Entry.bytes w) ++ R ∧ N < 256 ^ w ∧
        es.length < N ∧ (∀ e ∈ es, e.Valid w) ∧ entryVerdict w R = .error err) :=
  ⟨fun _ _ => parseNameValues_ok_iff hN, fun _ => parseNameValues_error_iff hN⟩

theorem parseNameValues_grammar_two_entries :
    2 * readBE (([0, 2, 0, 1, 0x61, 0, 0, 0, 1, 0x62, 0, 3, 0x63, 0, 0x64] : Bytes).take 2) < 2 ^ 32 ∧
    (parseNameValues 2 [0, 2, 0, 1, 0x61, 0, 0, 0, 1, 0x62, 0, 3, 0x63, 0, 0x64]).mapError
      ParseExit.surface = .ok ([⟨[0x61], false, false⟩, ⟨[], false, false⟩,
        ⟨[0x62], false, false⟩, ⟨[0x63], false, false⟩, ⟨[0x62], false, true⟩,
        ⟨[0x64], false, true⟩], 2) ∧
    ∃ (es : List Entry) (T : Bytes),
      ([0, 2, 0, 1, 0x61, 0, 0, 0, 1, 0x62, 0, 3, 0x63, 0, 0x64] : Bytes) =
        appendSize 2 es.length ++ es.flatMap (Entry.bytes 2) ++ T ∧
      es.length < 256 ^ 2 ∧ (∀ e ∈ es, e.Valid 2) ∧
      [⟨[0x61], false, false⟩, ⟨[], false, false⟩, ⟨[0x62], false, false⟩,
        ⟨[0x63], false, false⟩, ⟨[0x62], false, true⟩, ⟨[0x64], false, true⟩] =
        es.flatMap Entry.pieces ∧ 2 = (es.map Entry.counter).sum :=
  have hok : (parseNameValues 2 [0, 2, 0, 1, 0x61, 0, 0, 0, 1, 0x62, 0, 3, 0x63, 0, 0x64]).mapError
      ParseExit.surface = .ok ([⟨[0x61], false, false⟩, ⟨[], false, false⟩,
        ⟨[0x62], false, false⟩, ⟨[0x63], false, false⟩, ⟨[0x62], false, true⟩,
        ⟨[0x64], false, true⟩], 2) := rfl
  ⟨by decide, hok, ((parseNameValues_grammar 2 _ (by decide)).1 _ _).mp hok⟩

/-- At `W = 4` the count `2^31` makes the slot bound `numNV * 2` wrap to `0`: the image
`80 00 00 00` is accepted with no entries. -/
theorem parseNameValues_count_wraps :
    readBE [0x80, 0, 0, 0] = 2 ^ 31 ∧ parseNameValues 4 [0x80, 0, 0, 0] = .ok ([], 0) :=
  ⟨by decide, rfl⟩

/- The copy branch -/

/-- The copy branch allocates what the peer declares. For every width, a count of one entry
and a name whose declared `len` (any nonzero value of its field) exceeds the `rest` of the image
make `parseNameValues` run `new char[len]` with only `rest.length` bytes left, before its
`pull` runs out. -/
theorem parseNameValues_alloc_declared (w len : Nat) (rest : Bytes) (hlen : 0 < len)
    (hfit : len < 256 ^ w) (hrest : rest.length < len) :
    parseNameValues w (appendSize w 1 ++ appendSize w len ++ rest) =
      .error (.outOfRangeAfterAlloc len rest.length) := by
  have hone : 1 < 256 ^ w := lt_of_le_of_lt hlen hfit
  simp [parseNameValues, parseSize_appendSize, Nat.mod_eq_of_lt hone, parseSlots, parseSlot,
    Nat.mod_eq_of_lt hfit, hlen.ne', Nat.not_le.mpr hrest, Except.bind, Except.map]

theorem parseNameValues_alloc_past_image :
    parseNameValues 4 [0, 0, 0, 1, 0xff, 0xff, 0xff, 0xff] =
      .error (.outOfRangeAfterAlloc 4294967295 0) :=
  parseNameValues_alloc_declared 4 4294967295 [] (by decide) (by decide) (by decide)

end GzipHeaderCodec
