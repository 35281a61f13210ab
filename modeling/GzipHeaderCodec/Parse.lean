import GzipHeaderCodec.Wire

/-! `GzipHeaderCodec::parseNameValues`, slot by slot: names checked byte by byte, values split at
NUL into a first segment and repeated name/value pieces. -/
namespace GzipHeaderCodec

/-- How `parseNameValues` ends when it does not return its count: a `HeaderDecodeError` it
returns, or the `std::out_of_range` its cursor throws, from `parseSizeFun` or from `pull` in
the copy branch after `new char[len]` with `avail` bytes left. -/
inductive ParseExit where
  | error (e : HeaderDecodeError)
  | outOfRange
  | outOfRangeAfterAlloc (len avail : Nat)
deriving DecidableEq, Repr

/-- What the try/catch in `decode` makes of an exit: an out-of-range read is `BAD_ENCODING`. -/
def ParseExit.surface : ParseExit → HeaderDecodeError
  | .error e => e
  | _ => .badEncoding

/-- The state `parseNameValues` carries from slot to slot: the unread bytes, `outHeaders_`,
`headerName` (the name piece while its value is pending) and `expandedHeaderLineBytes`. -/
structure ParseState where
  cursor : Bytes
  outHeaders : List HeaderPiece
  headerName : Option HeaderPiece
  expanded : Nat

/-- The `while (pos < stop)` loop over a value's bytes. `seg` holds the bytes since
`valueStart`; `firstSeg` is the first segment once a NUL has been met (`first == false`);
`extra` are the pieces appended so far and `added` what they add to
`expandedHeaderLineBytes`. -/
def scanValue (name : Bytes) : Bytes → Bytes → Option Bytes → List HeaderPiece → Nat →
    Except HeaderDecodeError (Option Bytes × Bytes × List HeaderPiece × Nat)
  | [], seg, firstSeg, extra, added => .ok (firstSeg, seg, extra, added)
  | c :: cs, seg, firstSeg, extra, added =>
    if c = 0 then
      if seg = [] then .error .emptyHeaderValue
      else match firstSeg with
        | none => scanValue name cs [] (some seg) extra added
        | some _ => scanValue name cs [] firstSeg
            (extra ++ [⟨name, false, true⟩, ⟨seg, false, true⟩]) (added + (seg.length + name.length))
    else scanValue name cs (seg ++ [c]) firstSeg extra added

/-- A value slot after its bytes are read: the scan, then the last segment when a NUL was met.
It returns the value piece's bytes (cut to the first segment by `str.reset`), the pieces
appended after it and what they add to `expandedHeaderLineBytes`. -/
def splitValue (name value : Bytes) : Except HeaderDecodeError (Bytes × List HeaderPiece × Nat) :=
  match scanValue name value [] none [] 0 with
  | .error e => .error e
  | .ok (none, _, extra, added) => .ok (value, extra, added)
  | .ok (some first, seg, extra, added) =>
    if seg = [] then .error .emptyHeaderValue
    else .ok (first, extra ++ [⟨name, false, true⟩, ⟨seg, false, true⟩],
      added + (seg.length + name.length))

/-- Slot `i` of the loop: `parseSizeFun`, the empty-name check, the piece, then the name check
or the value split. The image is one buffer, so `peek()` sees every byte left: the piece is
borrowed when they cover `len` (`next.second >= len`); otherwise the copy branch allocates
`len` bytes and its `pull` runs out. -/
def parseSlot (w i : Nat) (st : ParseState) : Except ParseExit ParseState :=
  match parseSize w st.cursor with
  | none => .error .outOfRange
  | some (len, cur) =>
    if len = 0 ∧ st.headerName = none then .error (.error .emptyHeaderName)
    else if len ≤ cur.length then
      let piece : HeaderPiece := ⟨cur.take len, false, false⟩
      if i % 2 = 0 then
        if piece.str.any invalidNameChar then .error (.error .invalidHeaderValue)
        else .ok { st with cursor := cur.drop len, outHeaders := st.outHeaders ++ [piece],
                           headerName := some piece }
      else
        match splitValue ((st.headerName.map HeaderPiece.str).getD []) piece.str with
        | .error e => .error (.error e)
        | .ok (v, extra, added) =>
          .ok { cursor := cur.drop len, outHeaders := st.outHeaders ++ { piece with str := v } :: extra,
                headerName := none, expanded := st.expanded + added }
    else .error (.outOfRangeAfterAlloc len cur.length)

def parseSlots (w : Nat) : Nat → Nat → ParseState → Except ParseExit ParseState
  | 0, _, st => .ok st
  | k + 1, i, st => (parseSlot w i st).bind (parseSlots w k (i + 1))

/-- `GzipHeaderCodec::parseNameValues` on the image, `outHeaders_` cleared by `decode`: the
pieces and `expandedHeaderLineBytes`. The slot bound `numNV * 2` is `uint32_t` arithmetic. -/
def parseNameValues (w : Nat) (image : Bytes) : Except ParseExit (List HeaderPiece × Nat) :=
  match parseSize w image with
  | none => .error .outOfRange
  | some (numNV, cur) =>
    (parseSlots w (numNV * 2 % 2 ^ 32) 0 ⟨cur, [], none, 0⟩).map fun st =>
      (st.outHeaders, st.expanded)

def pairs (name : Bytes) (segs : List Bytes) : List HeaderPiece :=
  segs.flatMap fun s => [⟨name, false, true⟩, ⟨s, false, true⟩]

def pairBytes (name : Bytes) (segs : List Bytes) : Nat :=
  (segs.map fun s => s.length + name.length).sum

@[simp] theorem pairs_nil (name : Bytes) : pairs name [] = [] := rfl

@[simp] theorem pairs_append (name : Bytes) (a b : List Bytes) :
    pairs name (a ++ b) = pairs name a ++ pairs name b := by
  simp [pairs]

@[simp] theorem pairs_cons (name s : Bytes) (ss : List Bytes) :
    pairs name (s :: ss) = ⟨name, false, true⟩ :: ⟨s, false, true⟩ :: pairs name ss := rfl

@[simp] theorem pairBytes_nil (name : Bytes) : pairBytes name [] = 0 := rfl

@[simp] theorem pairBytes_cons (name s : Bytes) (ss : List Bytes) :
    pairBytes name (s :: ss) = s.length + name.length + pairBytes name ss := by
  simp [pairBytes]

@[simp] theorem pairBytes_append (name : Bytes) (a b : List Bytes) :
    pairBytes name (a ++ b) = pairBytes name a + pairBytes name b := by
  simp [pairBytes, List.sum_append]

/- The NUL scan against `List.splitOn` -/

theorem scanValue_append_of_nul_free {name u : Bytes} (hu : 0 ∉ u) (rest seg : Bytes)
    (firstSeg : Option Bytes) (extra : List HeaderPiece) (added : Nat) :
    scanValue name (u ++ rest) seg firstSeg extra added =
      scanValue name rest (seg ++ u) firstSeg extra added := by
  induction u generalizing seg with
  | nil => simp
  | cons c cs ih =>
    have hc : c ≠ 0 := fun h => hu (h ▸ List.mem_cons_self _ _)
    simp [scanValue, hc, ih (fun h => hu (List.mem_cons_of_mem _ h))]

theorem scanValue_mids {name f : Bytes} (mids : List Bytes) (hm : ∀ m ∈ mids, 0 ∉ m)
    (rest : Bytes) (extra : List HeaderPiece) (added : Nat) :
    scanValue name (mids.flatMap (· ++ [0]) ++ rest) [] (some f) extra added =
      if [] ∈ mids then .error .emptyHeaderValue
      else scanValue name rest [] (some f) (extra ++ pairs name mids)
        (added + pairBytes name mids) := by
  induction mids generalizing extra added with
  | nil => simp
  | cons m ms ih =>
    rw [List.flatMap_cons, List.append_assoc, List.append_assoc,
      scanValue_append_of_nul_free (hm m (List.mem_cons_self _ _)), List.nil_append,
      List.singleton_append]
    by_cases h0 : m = []
    · simp [scanValue, h0]
    · simp only [scanValue, if_pos rfl, if_neg h0]
      rw [ih (fun x hx => hm x (List.mem_cons_of_mem _ hx))]
      simp [h0, Ne.symm h0, Nat.add_assoc]

theorem intercalate_cons_snoc (s l : Bytes) (mids : List Bytes) :
    [0].intercalate (s :: (mids ++ [l])) = s ++ 0 :: (mids.flatMap (· ++ [0]) ++ l) := by
  induction mids generalizing s with
  | nil => simp [List.intercalate]
  | cons m ms ih =>
    rw [List.cons_append, List.intercalate, List.intersperse_cons_cons, List.flatten_cons,
      List.flatten_cons, ← List.intercalate, ih]
    simp

theorem nul_free_of_mem_splitOnP {p : UInt8 → Bool} {xs s : Bytes} (h : s ∈ xs.splitOnP p) :
    ∀ c ∈ s, p c = false := by
  induction xs generalizing s with
  | nil => simp_all
  | cons y ys ih =>
    rw [List.splitOnP_cons] at h
    split at h
    · rcases List.mem_cons.mp h with rfl | h
      · simp
      · exact ih h
    · obtain ⟨a, as, ha⟩ := List.exists_cons_of_ne_nil (List.splitOnP_ne_nil p ys)
      rw [ha, List.modifyHead_cons] at h
      rcases List.mem_cons.mp h with rfl | h
      · intro c hc
        rcases List.mem_cons.mp hc with rfl | hc
        · simpa using ‹¬p c = true›
        · exact ih (ha ▸ List.mem_cons_self a as) c hc
      · exact ih (ha ▸ List.mem_cons_of_mem a h)

theorem nul_free_of_mem_splitOn {xs s : Bytes} (h : s ∈ xs.splitOn 0) : 0 ∉ s := fun h0 => by
  simpa using nul_free_of_mem_splitOnP h 0 h0

theorem splitValue_eq (name value : Bytes) :
    splitValue name value =
      if 0 ∈ value ∧ [] ∈ value.splitOn 0 then .error .emptyHeaderValue
      else .ok ((value.splitOn 0).headD [], pairs name (value.splitOn 0).tail,
        pairBytes name (value.splitOn 0).tail) := by
  have hv : [0].intercalate (value.splitOn 0) = value := List.intercalate_splitOn _ _
  have hfree : ∀ s ∈ value.splitOn 0, 0 ∉ s := fun s hs => nul_free_of_mem_splitOn hs
  obtain ⟨s, ss, hsegs⟩ := List.exists_cons_of_ne_nil (List.splitOnP_ne_nil _ value)
  simp only [List.splitOn] at hv hfree ⊢
  rw [hsegs] at hv hfree ⊢
  rcases List.eq_nil_or_concat ss with rfl | ⟨mids, l, rfl⟩
  · have hvs : value = s := by simpa [List.intercalate] using hv.symm
    have hs := hfree s (List.mem_singleton_self s)
    have := @scanValue_append_of_nul_free name s hs [] [] none [] 0
    simp only [List.append_nil, List.nil_append] at this
    rw [hvs]
    simp [splitValue, this, hs, scanValue]
  · rw [List.concat_eq_append] at hv hfree ⊢
    rw [intercalate_cons_snoc] at hv
    subst hv
    have hs := hfree s (List.mem_cons_self _ _)
    have hl := hfree l (by simp)
    have hm : ∀ m ∈ mids, 0 ∉ m := fun m hm => hfree m (by simp [hm])
    have hlast := @scanValue_append_of_nul_free name l hl [] [] (some s)
      (pairs name mids) (pairBytes name mids)
    simp only [List.append_nil, List.nil_append] at hlast
    unfold splitValue
    rw [scanValue_append_of_nul_free hs, List.nil_append]
    by_cases h0 : s = []
    · simp [scanValue, h0]
    · simp only [scanValue, if_pos rfl, if_neg h0]
      rw [scanValue_mids mids hm]
      simp only [List.nil_append, Nat.zero_add, hlast]
      by_cases hmid : [] ∈ mids
      · simp [hmid]
      · by_cases hl0 : l = []
        · simp [hmid, hl0, scanValue]
        · simp [hmid, hl0, Ne.symm h0, Ne.symm hl0, Nat.add_assoc, scanValue]

end GzipHeaderCodec
