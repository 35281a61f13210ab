import GzipHeaderCodec.RoundTrip

/-! `GzipHeaderCodec::decode`: the inflate loops that fill the thread's scratch buffer, the two
caps, and `parseNameValues` on the buffer. zlib is a parameter; the loops run on fuel. -/
namespace GzipHeaderCodec

def zOk : Int := 0

def zNeedDict : Int := 2

def kMaxExpandedHeaderLineBytes : Nat := 80 * 1024

/-- Modelled from the spec: one `inflate(&inflater_, Z_NO_FLUSH)` call (zlib, not in src/): the
return code, how many of the `avail_in` bytes at `next_in` it consumed, the bytes it wrote at
`next_out`, and the stream after it. -/
structure InflateResult (σ : Type) where
  ret : Int
  consumed : Nat
  written : Bytes
  state : σ

/-- Modelled from the spec: the INFLATE handle `inflater_` over a stream state `σ`.
`inflate z input availOut` is one call with `input` at `next_in` and `avail_out = availOut`; it
writes at most `avail_out` bytes. `setDictionary` is `inflateSetDictionary`. -/
structure Inflater (σ : Type) where
  inflate : σ → Bytes → Nat → InflateResult σ
  setDictionary : σ → Bytes → Int × σ
  written_le : ∀ z input n, (inflate z input n).written.length ≤ n

/-- An inflater whose stream is the image itself: each call copies what fits in `avail_out`. -/
def Inflater.copy : Inflater Unit where
  inflate _ input n := ⟨zOk, min input.length n, input.take n, ()⟩
  setDictionary _ _ := (zOk, ())
  written_le _ input n := List.length_take_le n input

/-- The scratch `IOBuf`: the bytes it holds (`length()`) within its `capacity()`. -/
structure HeaderBuf where
  data : Bytes
  capacity : Nat
  length_le : data.length ≤ capacity

namespace HeaderBuf

def tailroom (b : HeaderBuf) : Nat := b.capacity - b.data.length

/-- `reserve(0, capacity())` when `tailroom() == 0`: the capacity doubles. -/
def ensureTailroom (b : HeaderBuf) : HeaderBuf :=
  if b.tailroom = 0 then ⟨b.data, b.capacity + b.capacity, Nat.le_add_right_of_le b.length_le⟩
  else b

/-- `append(n)` for the `n` bytes the inflater wrote in the tailroom. -/
def append (b : HeaderBuf) (out : Bytes) (h : out.length ≤ b.tailroom) : HeaderBuf :=
  ⟨b.data ++ out, b.capacity, by
    have := b.length_le
    simp only [tailroom] at h
    simp only [List.length_append]
    omega⟩

@[simp] theorem ensureTailroom_data (b : HeaderBuf) : b.ensureTailroom.data = b.data := by
  unfold ensureTailroom
  split <;> rfl

theorem tailroom_le_ensureTailroom (b : HeaderBuf) : b.tailroom ≤ b.ensureTailroom.tailroom := by
  unfold ensureTailroom
  split
  · simp only [tailroom]
    omega
  · exact Nat.le_refl _

@[simp] theorem append_data (b : HeaderBuf) (out : Bytes) (h : out.length ≤ b.tailroom) :
    (b.append out h).data = b.data ++ out := rfl

end HeaderBuf

/-- `getStaticHeaderBufSpace(size)`: the thread's buffer, created when missing or smaller than
`size`, otherwise cleared. -/
def getStaticHeaderBufSpace (size : Nat) : Option HeaderBuf → HeaderBuf
  | none => ⟨[], size, Nat.zero_le _⟩
  | some b => if size > b.capacity then ⟨[], size, Nat.zero_le _⟩ else ⟨[], b.capacity, Nat.zero_le _⟩

theorem getStaticHeaderBufSpace_data (size : Nat) (b : Option HeaderBuf) :
    (getStaticHeaderBufSpace size b).data = [] := by
  unfold getStaticHeaderBufSpace
  split
  · rfl
  · split <;> rfl

theorem le_getStaticHeaderBufSpace_tailroom (size : Nat) (b : Option HeaderBuf) :
    size ≤ (getStaticHeaderBufSpace size b).tailroom := by
  unfold getStaticHeaderBufSpace HeaderBuf.tailroom
  split
  · simp
  · split <;> simp
    omega

/-- How `decode` stops without a result: an error it returns, or the model's fuel running out. -/
inductive DecodeStop where
  | error (e : HeaderDecodeError)
  | outOfFuel
deriving DecidableEq, Repr

section Loops

variable {σ : Type} (infl : Inflater σ) (dict : Bytes) (maxUncompressed : Nat)

/-- The `do { .. } while (avail_in > 0 && avail_out == 0)` loop over one chunk; `input` is what
is left at `next_in`. After `Z_NEED_DICT` the dictionary is set and `avail_out` is `0`. -/
def inflateChunk : Nat → σ → Bytes → HeaderBuf → Except DecodeStop (σ × HeaderBuf)
  | 0, _, _, _ => .error .outOfFuel
  | fuel + 1, z, input, buf =>
    let buf := buf.ensureTailroom
    let r := infl.inflate z input buf.tailroom
    let rest := input.drop r.consumed
    if r.ret = zNeedDict then
      let d := infl.setDictionary r.state dict
      if d.1 ≠ zOk then .error (.error .inflateDictionary)
      else if rest.length > 0 then inflateChunk fuel d.2 rest buf
      else .ok (d.2, buf)
    else if r.ret ≠ zOk then .error (.error .badEncoding)
    else
      let buf' := buf.append r.written (infl.written_le z input buf.tailroom)
      if buf'.data.length > maxUncompressed then .error (.error .headersTooLarge)
      else if rest.length > 0 ∧ r.written.length = buf.tailroom then
        inflateChunk fuel r.state rest buf'
      else .ok (r.state, buf')

/-- Modelled from the spec: folly's `io::Cursor` over the frame's buffer chain (not in src/), as
the unread bytes of each buffer. `peek()` moves past exhausted buffers and returns the current
one's bytes. -/
def Cursor.peek : List Bytes → Bytes × List Bytes
  | [] => ([], [])
  | b :: bs => if b = [] then Cursor.peek bs else (b, b :: bs)

/-- Modelled from the spec: `Cursor::skip(n)` within the current buffer. -/
def Cursor.skip (n : Nat) : List Bytes → List Bytes
  | [] => []
  | b :: bs => b.drop n :: bs

/-- The `while (length > 0)` loop: `min((uint32_t)peek().second, length)` bytes of the current
chunk go to the inner loop, then `length`, `consumed` and the cursor move past them. -/
def inflateInput : Nat → Nat → List Bytes → Nat → σ → HeaderBuf →
    Except DecodeStop (σ × HeaderBuf × List Bytes × Nat)
  | _, 0, cursor, consumed, z, buf => .ok (z, buf, cursor, consumed)
  | 0, _ + 1, _, _, _, _ => .error .outOfFuel
  | fuel + 1, length + 1, cursor, consumed, z, buf =>
    let next := Cursor.peek cursor
    let chunkLen := min (next.1.length % 2 ^ 32) (length + 1)
    (inflateChunk infl dict maxUncompressed fuel z (next.1.take chunkLen) buf).bind fun (z, buf) =>
      inflateInput fuel (length + 1 - chunkLen) (Cursor.skip chunkLen next.2) (consumed + chunkLen)
        z buf

end Loops

/-- `HeaderDecodeResult`: the pieces and the compressed bytes consumed. -/
structure HeaderDecodeResult where
  headers : List HeaderPiece
  bytesConsumed : Nat
deriving DecidableEq, Repr

/-- What `decode` reads and leaves besides its result: the inflater's stream, the thread's
scratch buffer, the cursor and `decodedSize_`. -/
structure DecodeState (σ : Type) where
  inflater : σ
  headerBuf : Option HeaderBuf
  cursor : List Bytes
  decodedSize : HeaderSize

/-- `decode` after the inflate loop: `parseNameValues` on the image, with an out-of-range read
surfaced as `BAD_ENCODING`, then the cap on the expanded bytes. -/
def decodeTail (w : Nat) (image : Bytes) (consumed : Nat) :
    Except HeaderDecodeError HeaderDecodeResult :=
  match parseNameValues w image with
  | .error e => .error e.surface
  | .ok (pieces, expanded) =>
    if expanded > kMaxExpandedHeaderLineBytes then .error .headersTooLarge
    else .ok ⟨pieces, consumed⟩

/-- `GzipHeaderCodec::decode(cursor, length)` with `maxUncompressed_`; the stats sink is not
modelled. -/
def decode {σ : Type} (infl : Inflater σ) (vs : VersionSettings) (maxUncompressed fuel : Nat)
    (st : DecodeState σ) (length : Nat) : Except DecodeStop (HeaderDecodeResult × DecodeState σ) :=
  if length = 0 then .ok (⟨[], 0⟩, st)
  else
    let buf := getStaticHeaderBufSpace maxUncompressed st.headerBuf
    (inflateInput infl vs.dict maxUncompressed fuel length st.cursor 0 st.inflater buf).bind
      fun (z, buf, cursor, consumed) =>
        match decodeTail vs.nameValueSize buf.data consumed with
        | .error e => .error (.error e)
        | .ok r => .ok (r, ⟨z, some buf, cursor, ⟨consumed, buf.data.length⟩⟩)

/- The loops -/

section Loops

variable {σ : Type} {infl : Inflater σ} {dict : Bytes} {maxUncompressed : Nat}

theorem inflateChunk_le {fuel : Nat} {z z' : σ} {input : Bytes} {buf buf' : HeaderBuf}
    (h : inflateChunk infl dict maxUncompressed fuel z input buf = .ok (z', buf'))
    (hb : buf.data.length ≤ maxUncompressed) : buf'.data.length ≤ maxUncompressed := by
  induction fuel generalizing z input buf with
  | zero => cases h
  | succ fuel ih =>
    simp only [inflateChunk] at h
    split_ifs at h with hd hset hrest hret hbig hmore
    · exact ih h (by rwa [HeaderBuf.ensureTailroom_data])
    · cases h
      rwa [HeaderBuf.ensureTailroom_data]
    · exact ih h (Nat.le_of_not_lt hbig)
    · cases h
      exact Nat.le_of_not_lt hbig

theorem Cursor.peek_flatten (c : List Bytes) : (Cursor.peek c).2.flatten = c.flatten := by
  induction c with
  | nil => rfl
  | cons b bs ih =>
    unfold Cursor.peek
    split
    · simp [*]
    · rfl

theorem Cursor.peek_eq (c : List Bytes) :
    Cursor.peek c = ([], []) ∨ ∃ b bs, Cursor.peek c = (b, b :: bs) := by
  induction c with
  | nil => exact .inl rfl
  | cons b bs ih =>
    unfold Cursor.peek
    split
    · exact ih
    · exact .inr ⟨b, bs, rfl⟩

theorem Cursor.skip_peek (c : List Bytes) {n : Nat} (hn : n ≤ (Cursor.peek c).1.length) :
    (Cursor.skip n (Cursor.peek c).2).flatten = c.flatten.drop n := by
  rw [← Cursor.peek_flatten c]
  rcases Cursor.peek_eq c with h | ⟨b, bs, h⟩ <;> rw [h] at hn ⊢
  · simp only [List.length_nil, Nat.le_zero] at hn
    subst hn
    rfl
  · simp [Cursor.skip, List.drop_append_of_le_length hn]

/-- What the outer loop guarantees when it ends: it consumed exactly `length` bytes, counted in
`consumed` and skipped in the cursor, and kept the buffer within `maxUncompressed_`. -/
theorem inflateInput_ok {fuel length consumed consumed' : Nat} {cursor cursor' : List Bytes}
    {z z' : σ} {buf buf' : HeaderBuf}
    (h : inflateInput infl dict maxUncompressed fuel length cursor consumed z buf =
      .ok (z', buf', cursor', consumed')) :
    consumed' = consumed + length ∧ cursor'.flatten = cursor.flatten.drop length ∧
      (buf.data.length ≤ maxUncompressed → buf'.data.length ≤ maxUncompressed) := by
  induction fuel generalizing length cursor consumed z buf with
  | zero =>
    cases length with
    | zero => cases h; exact ⟨rfl, rfl, id⟩
    | succ _ => cases h
  | succ fuel ih =>
    cases length with
    | zero => cases h; exact ⟨rfl, rfl, id⟩
    | succ length =>
      simp only [inflateInput] at h
      rcases hc : inflateChunk infl dict maxUncompressed fuel z
        ((Cursor.peek cursor).1.take (min ((Cursor.peek cursor).1.length % 2 ^ 32) (length + 1))) buf
        with e | ⟨z1, buf1⟩ <;> rw [hc] at h
      · cases h
      obtain ⟨hcons, hcur, hbuf⟩ := ih h
      have hle := Nat.min_le_right ((Cursor.peek cursor).1.length % 2 ^ 32) (length + 1)
      refine ⟨by omega, ?_, fun hb => hbuf (inflateChunk_le hc hb)⟩
      rw [hcur, Cursor.skip_peek cursor ((Nat.min_le_left _ _).trans (Nat.mod_le _ _)),
        List.drop_drop]
      congr 1
      omega

end Loops

/-- What a result of `decode` comes from: nothing to read, or the inflate loop over the cursor
into the cleared scratch buffer, then a parse of the buffer whose counter is within
`kMaxExpandedHeaderLineBytes`. -/
theorem decode_eq_ok {σ : Type} {infl : Inflater σ} {vs : VersionSettings}
    {maxUncompressed fuel length : Nat} {st : DecodeState σ} {r : HeaderDecodeResult}
    {st' : DecodeState σ} (h : decode infl vs maxUncompressed fuel st length = .ok (r, st')) :
    (length = 0 ∧ r = ⟨[], 0⟩ ∧ st' = st) ∨
    ∃ z buf cursor consumed expanded,
      inflateInput infl vs.dict maxUncompressed fuel length st.cursor 0 st.inflater
        (getStaticHeaderBufSpace maxUncompressed st.headerBuf) = .ok (z, buf, cursor, consumed) ∧
      parseNameValues vs.nameValueSize buf.data = .ok (r.headers, expanded) ∧
      expanded ≤ kMaxExpandedHeaderLineBytes ∧ r.bytesConsumed = consumed ∧
      st' = ⟨z, some buf, cursor, ⟨consumed, buf.data.length⟩⟩ := by
  unfold decode at h
  split_ifs at h with hlen
  · cases h
    exact .inl ⟨hlen, rfl, rfl⟩
  dsimp only at h
  rcases hi : inflateInput infl vs.dict maxUncompressed fuel length st.cursor 0 st.inflater
    (getStaticHeaderBufSpace maxUncompressed st.headerBuf) with e | ⟨z, buf, cursor, consumed⟩ <;>
    rw [hi] at h
  · cases h
  simp only [Except.bind, decodeTail] at h
  rcases hp : parseNameValues vs.nameValueSize buf.data with e | ⟨pieces, expanded⟩ <;>
    simp only [hp] at h
  · cases h
  split_ifs at h with hexp
  cases h
  exact .inr ⟨z, buf, cursor, consumed, expanded, rfl, hp, Nat.le_of_not_lt hexp, rfl, rfl⟩

def piecesBytes (ps : List HeaderPiece) : Nat := (ps.map fun p => p.str.length).sum

@[simp] theorem piecesBytes_append (ps qs : List HeaderPiece) :
    piecesBytes (ps ++ qs) = piecesBytes ps + piecesBytes qs := by
  simp [piecesBytes, List.sum_append]

@[simp] theorem piecesBytes_cons (p : HeaderPiece) (ps : List HeaderPiece) :
    piecesBytes (p :: ps) = p.str.length + piecesBytes ps := by
  simp [piecesBytes]

theorem piecesBytes_pairs (name : Bytes) (segs : List Bytes) :
    piecesBytes (pairs name segs) = pairBytes name segs := by
  induction segs with
  | nil => rfl
  | cons s ss ih => simp [ih]; omega

theorem headD_splitOn_length_le (value : Bytes) : ((value.splitOn 0).headD []).length ≤ value.length := by
  obtain ⟨s, ss, hsegs⟩ := List.exists_cons_of_ne_nil (List.splitOnP_ne_nil (· == 0) value)
  have hv := List.intercalate_splitOn value 0
  simp only [List.splitOn] at hv ⊢
  rw [hsegs, intercalate_nul_cons] at hv
  rw [hsegs, List.headD_cons]
  conv_rhs => rw [← hv]
  simp

theorem Entry.piecesBytes_le (w : Nat) (e : Entry) :
    piecesBytes e.pieces ≤ (e.bytes w).length + e.counter := by
  have := headD_splitOn_length_le e.value
  simp only [Entry.pieces, piecesBytes_cons, piecesBytes_pairs, Entry.bytes, Entry.counter,
    Entry.segments, List.length_append, appendSize_length] at this ⊢
  omega

theorem parseNameValues_piecesBytes {w : Nat} {B : Bytes} {ps : List HeaderPiece} {c : Nat}
    (h : parseNameValues w B = .ok (ps, c)) : piecesBytes ps ≤ B.length + c := by
  obtain ⟨N, es, T, rfl, -, -, -, rfl, rfl⟩ := parseNameValues_ok_entries h
  have : ∀ es : List Entry, piecesBytes (es.flatMap Entry.pieces) ≤
      (es.flatMap (Entry.bytes w)).length + (es.map Entry.counter).sum := by
    intro es
    induction es with
    | nil => simp [piecesBytes]
    | cons e es ih =>
      have := e.piecesBytes_le w
      simp only [List.flatMap_cons, piecesBytes_append, List.length_append, List.map_cons,
        List.sum_cons]
      omega
  have := this es
  simp only [List.length_append]
  omega

/-- The decompression-bomb defence: a result of `decode` comes from an image the inflate loop
kept within `maxUncompressed_`, parsed with at most `kMaxExpandedHeaderLineBytes` of expanded
copies, so its pieces view at most `maxUncompressed_ + kMaxExpandedHeaderLineBytes` bytes. -/
theorem decode_bounded {σ : Type} (infl : Inflater σ) (vs : VersionSettings)
    (maxUncompressed fuel length : Nat) (st : DecodeState σ) {r : HeaderDecodeResult}
    {st' : DecodeState σ} (h : decode infl vs maxUncompressed fuel st length = .ok (r, st')) :
    (0 < length → ∃ buf c, st'.headerBuf = some buf ∧ buf.data.length ≤ maxUncompressed ∧
      parseNameValues vs.nameValueSize buf.data = .ok (r.headers, c) ∧
      c ≤ kMaxExpandedHeaderLineBytes) ∧
    piecesBytes r.headers ≤ maxUncompressed + kMaxExpandedHeaderLineBytes := by
  rcases decode_eq_ok h with ⟨rfl, rfl, rfl⟩ | ⟨z, buf, cursor, consumed, c, hi, hp, hc, -, rfl⟩
  · exact ⟨fun h => absurd h (Nat.lt_irrefl 0), by simp [piecesBytes]⟩
  have hbuf := (inflateInput_ok hi).2.2 (by simp [getStaticHeaderBufSpace_data])
  have := parseNameValues_piecesBytes hp
  exact ⟨fun _ => ⟨buf, c, rfl, hbuf, hp, hc⟩, by omega⟩

theorem decode_bounded_copy :
    ∃ r st', decode Inflater.copy ⟨2, [], .inl rfl⟩ 64 2
        ⟨(), none, [[0, 1, 0, 1, 0x61, 0, 1, 0x62]], ⟨0, 0⟩⟩ 8 = .ok (r, st') ∧
      (0 < 8 → ∃ buf c, st'.headerBuf = some buf ∧ buf.data.length ≤ 64 ∧
        parseNameValues 2 buf.data = .ok (r.headers, c) ∧ c ≤ kMaxExpandedHeaderLineBytes) ∧
      piecesBytes r.headers ≤ 64 + kMaxExpandedHeaderLineBytes :=
  have h : decode Inflater.copy ⟨2, [], .inl rfl⟩ 64 2
      ⟨(), none, [[0, 1, 0, 1, 0x61, 0, 1, 0x62]], ⟨0, 0⟩⟩ 8 =
      .ok (⟨[⟨[0x61], false, false⟩, ⟨[0x62], false, false⟩], 8⟩,
        ⟨(), some ⟨[0, 1, 0, 1, 0x61, 0, 1, 0x62], 64, by decide⟩, [[]], ⟨8, 8⟩⟩) := rfl
  ⟨_, _, h, decode_bounded _ _ _ _ _ _ h⟩

/-- On success `decode` reports as consumed exactly the `length` bytes it was given, and leaves
the cursor right after them. -/
theorem decode_consumes {σ : Type} (infl : Inflater σ) (vs : VersionSettings)
    (maxUncompressed fuel length : Nat) (st : DecodeState σ) {r : HeaderDecodeResult}
    {st' : DecodeState σ} (h : decode infl vs maxUncompressed fuel st length = .ok (r, st')) :
    r.bytesConsumed = length ∧ st'.cursor.flatten = st.cursor.flatten.drop length := by
  rcases decode_eq_ok h with ⟨rfl, rfl, rfl⟩ | ⟨z, buf, cursor, consumed, c, hi, -, -, hr, rfl⟩
  · exact ⟨rfl, (List.drop_zero _).symm⟩
  obtain ⟨hcons, hcur, -⟩ := inflateInput_ok hi
  exact ⟨hr.trans (by simpa using hcons), hcur⟩

theorem decode_consumes_copy :
    ∃ r st', decode Inflater.copy ⟨2, [], .inl rfl⟩ 64 3
        ⟨(), none, [[0, 1, 0, 1, 0x61], [0, 1, 0x62, 0x63]], ⟨0, 0⟩⟩ 8 = .ok (r, st') ∧
      r.bytesConsumed = 8 ∧
      st'.cursor.flatten = ([[0, 1, 0, 1, 0x61], [0, 1, 0x62, 0x63]] : List Bytes).flatten.drop 8 :=
  have h : decode Inflater.copy ⟨2, [], .inl rfl⟩ 64 3
      ⟨(), none, [[0, 1, 0, 1, 0x61], [0, 1, 0x62, 0x63]], ⟨0, 0⟩⟩ 8 =
      .ok (⟨[⟨[0x61], false, false⟩, ⟨[0x62], false, false⟩], 8⟩,
        ⟨(), some ⟨[0, 1, 0, 1, 0x61, 0, 1, 0x62], 64, by decide⟩, [[0x63]], ⟨8, 8⟩⟩) := rfl
  ⟨_, _, h, decode_consumes _ _ _ _ _ _ h⟩

/- The round trip through `decode` -/

/-- An inflater that, at stream state `z` and given the compressed bytes `out` whole, consumes
them and writes `image` in one call whenever `avail_out` leaves room for it. -/
def Inflater.Restores {σ : Type} (infl : Inflater σ) (z : σ) (out image : Bytes) : Prop :=
  ∀ n, image.length ≤ n → ∃ z', infl.inflate z out n = ⟨zOk, out.length, image, z'⟩

theorem Inflater.copy_restores (image : Bytes) : Inflater.copy.Restores () image image :=
  fun n hn => ⟨(), by simp [Inflater.copy, Nat.min_eq_left hn, List.take_of_length_le hn]⟩

section Restores

variable {σ : Type} {infl : Inflater σ} (dict : Bytes) {maxUncompressed : Nat} {z : σ}
  {out image : Bytes}

theorem inflateChunk_restores (fuel : Nat) (hres : infl.Restores z out image) {buf : HeaderBuf}
    (hdata : buf.data = []) (hroom : image.length ≤ buf.tailroom)
    (hmax : image.length ≤ maxUncompressed) :
    ∃ z' buf', inflateChunk infl dict maxUncompressed (fuel + 1) z out buf = .ok (z', buf') ∧
      buf'.data = image := by
  obtain ⟨z', hz⟩ := hres _ (hroom.trans buf.tailroom_le_ensureTailroom)
  have hret : (infl.inflate z out buf.ensureTailroom.tailroom).ret = zOk := by rw [hz]
  have hrest : out.drop (infl.inflate z out buf.ensureTailroom.tailroom).consumed = [] := by
    rw [hz]
    exact List.drop_length out
  have hwritten : (infl.inflate z out buf.ensureTailroom.tailroom).written = image := by rw [hz]
  have hstate : (infl.inflate z out buf.ensureTailroom.tailroom).state = z' := by rw [hz]
  refine ⟨z', buf.ensureTailroom.append (infl.inflate z out buf.ensureTailroom.tailroom).written
    (infl.written_le _ _ _), ?_, by simp [hwritten, hdata]⟩
  simp only [inflateChunk, hret, hrest, HeaderBuf.append_data, HeaderBuf.ensureTailroom_data,
    hdata, hwritten, List.nil_append, List.length_nil, hstate, zOk, zNeedDict]
  simp [Nat.not_lt.mpr hmax]

theorem inflateInput_restores (fuel : Nat) (hres : infl.Restores z out image) (hout : out ≠ [])
    (hlen : out.length < 2 ^ 32) (more : List Bytes) {buf : HeaderBuf} (hdata : buf.data = [])
    (hroom : image.length ≤ buf.tailroom) (hmax : image.length ≤ maxUncompressed) :
    ∃ z' buf' cursor, inflateInput infl dict maxUncompressed (fuel + 2) out.length (out :: more) 0
        z buf = .ok (z', buf', cursor, out.length) ∧ buf'.data = image := by
  obtain ⟨k, hk⟩ : ∃ k, out.length = k + 1 :=
    Nat.exists_eq_succ_of_ne_zero (fun h => hout (List.eq_nil_of_length_eq_zero h))
  obtain ⟨z', buf', hc, hbuf'⟩ := inflateChunk_restores dict fuel hres hdata hroom hmax
  refine ⟨z', buf', out.drop out.length :: more, ?_, hbuf'⟩
  rw [hk, inflateInput]
  simp only [Cursor.peek, if_neg hout, ← hk, Nat.mod_eq_of_lt hlen, Nat.min_self, List.take_length,
    hc, Except.bind, Nat.sub_self, Nat.zero_add]
  rfl

end Restores

/-- The round trip of the codec: when a peer's inflater restores the image `encode` wrote from
the compressed bytes `out`, `decode` on them returns the runs' pieces, lowercased name and values
in sort order, provided the image fits `maxUncompressed_` and the expanded copies their cap. -/
theorem decode_serialize {σ : Type} (infl : Inflater σ) (vs : VersionSettings)
    (maxUncompressed : Nat) (st : DecodeState σ) {hs : List Header} (s : SortOutcome hs)
    (he : Encodable hs) (hf : Fits vs.nameValueSize s.sorted) {other : Nat} {image out : Bytes}
    {more : List Bytes} (hser : serialize vs.nameValueSize other s.sorted = .ok image)
    (hout : out ≠ []) (hlen : out.length < 2 ^ 32) (hcur : st.cursor = out :: more)
    (hres : infl.Restores st.inflater out image)
    (hmax : image.length ≤ maxUncompressed)
    (hexp : ((runs s.sorted).map Run.counter).sum ≤ kMaxExpandedHeaderLineBytes) :
    ∃ st', decode infl vs maxUncompressed 2 st out.length =
      .ok (⟨(runs s.sorted).flatMap Run.pieces, out.length⟩, st') := by
  obtain ⟨image', hser', hparse⟩ := parseNameValues_serialize s he other hf
  obtain rfl : image' = image := Except.ok.inj (hser'.symm.trans hser)
  obtain ⟨z', buf', cursor, hin, hbuf'⟩ := inflateInput_restores vs.dict 0 hres hout hlen more
    (getStaticHeaderBufSpace_data maxUncompressed st.headerBuf)
    (hmax.trans (le_getStaticHeaderBufSpace_tailroom _ _)) hmax
  have hne : out.length ≠ 0 := fun h => hout (List.eq_nil_of_length_eq_zero h)
  rw [Nat.zero_add] at hin
  refine ⟨⟨z', some buf', cursor, ⟨out.length, buf'.data.length⟩⟩, ?_⟩
  simp only [decode, if_neg hne, hcur, hin, Except.bind, decodeTail, hbuf', hparse,
    if_neg (Nat.not_lt.mpr hexp)]

theorem decode_serialize_copy :
    Encodable [⟨1, [0x61], [0x62]⟩] ∧ Fits 2 (SortOutcome.insertion [⟨1, [0x61], [0x62]⟩]).sorted ∧
    serialize 2 0 (SortOutcome.insertion [⟨1, [0x61], [0x62]⟩]).sorted =
      .ok [0, 1, 0, 1, 0x61, 0, 1, 0x62] ∧
    ([0, 1, 0, 1, 0x61, 0, 1, 0x62] : Bytes) ≠ [] ∧
    ([0, 1, 0, 1, 0x61, 0, 1, 0x62] : Bytes).length < 2 ^ 32 ∧
    Inflater.copy.Restores () [0, 1, 0, 1, 0x61, 0, 1, 0x62] [0, 1, 0, 1, 0x61, 0, 1, 0x62] ∧
    ([0, 1, 0, 1, 0x61, 0, 1, 0x62] : Bytes).length ≤ 64 ∧
    ((runs (SortOutcome.insertion [⟨1, [0x61], [0x62]⟩]).sorted).map Run.counter).sum ≤
      kMaxExpandedHeaderLineBytes ∧
    ∃ st', decode Inflater.copy ⟨2, [], .inl rfl⟩ 64 2
        ⟨(), none, [[0, 1, 0, 1, 0x61, 0, 1, 0x62]], ⟨0, 0⟩⟩ 8 =
      .ok (⟨(runs (SortOutcome.insertion [⟨1, [0x61], [0x62]⟩]).sorted).flatMap Run.pieces, 8⟩,
        st') :=
  have he : Encodable [⟨1, [0x61], [0x62]⟩] := ⟨by decide, by decide, by decide, by decide⟩
  have hf : Fits 2 (SortOutcome.insertion [⟨1, [0x61], [0x62]⟩]).sorted :=
    ⟨by decide, by decide, by decide, by decide⟩
  have hser : serialize 2 0 (SortOutcome.insertion [⟨1, [0x61], [0x62]⟩]).sorted =
      .ok [0, 1, 0, 1, 0x61, 0, 1, 0x62] := rfl
  ⟨he, hf, hser, by decide, by decide, Inflater.copy_restores _, by decide, by decide,
    decode_serialize Inflater.copy ⟨2, [], .inl rfl⟩ 64 ⟨(), none, [[0, 1, 0, 1, 0x61, 0, 1, 0x62]],
      ⟨0, 0⟩⟩ _ he hf hser (by decide) (by decide) rfl (Inflater.copy_restores _) (by decide)
      (by decide)⟩

/- What the pieces view -/

theorem infix_nul_intercalate {s : Bytes} : ∀ {l : List Bytes}, s ∈ l → s <:+: [0].intercalate l
  | a :: vs, h => by
    rw [intercalate_nul_cons]
    rcases List.mem_cons.mp h with rfl | h
    · exact (List.prefix_append _ _).isInfix
    · have : 0 :: s <:+: vs.flatMap (0 :: ·) := List.infix_of_mem_flatten (List.mem_map_of_mem _ h)
      exact ((List.suffix_cons 0 s).isInfix.trans this).trans (List.suffix_append _ _).isInfix

theorem Entry.pieces_infix (w : Nat) (e : Entry) :
    ∀ p ∈ e.pieces, p.owned = false ∧ p.str <:+: e.bytes w := by
  have hname : e.name <:+: e.bytes w :=
    (List.infix_append _ _ _).trans (List.prefix_append _ _).isInfix
  have hseg : ∀ s ∈ e.segments, s <:+: e.bytes w := fun s hs => by
    have := infix_nul_intercalate hs
    rw [Entry.segments, List.intercalate_splitOn] at this
    exact this.trans (List.suffix_append _ _).isInfix
  simp only [Entry.pieces, List.mem_cons, pairs, List.mem_flatMap]
  rintro p (rfl | rfl | ⟨s, hs, hp⟩)
  · exact ⟨rfl, hname⟩
  · refine ⟨rfl, ?_⟩
    cases h : e.segments with
    | nil => exact List.nil_infix
    | cons s ss => exact hseg s (by rw [h]; exact List.mem_cons_self _ _)
  · rcases hp with rfl | rfl | h
    · exact ⟨rfl, hname⟩
    · exact ⟨rfl, hseg s (List.mem_of_mem_tail hs)⟩
    · exact absurd h (List.not_mem_nil _)

theorem parseNameValues_borrows {w : Nat} {B : Bytes} {ps : List HeaderPiece} {c : Nat}
    (h : parseNameValues w B = .ok (ps, c)) : ∀ p ∈ ps, p.owned = false ∧ p.str <:+: B := by
  obtain ⟨N, es, T, rfl, -, -, -, rfl, -⟩ := parseNameValues_ok_entries h
  simp only [List.mem_flatMap]
  rintro p ⟨e, he, hp⟩
  obtain ⟨hown, hinf⟩ := e.pieces_infix w p hp
  exact ⟨hown, hinf.trans ((List.infix_of_mem_flatten (List.mem_map_of_mem (Entry.bytes w) he)).trans
    (List.infix_append _ _ _))⟩

/-- Every piece `decode` returns is borrowed: it views a slice of the scratch buffer `decode`
leaves to the thread, so the next `encode` or `decode` on the thread, which clears that buffer,
takes its bytes away; none is a copy it owns. -/
theorem decode_borrows {σ : Type} (infl : Inflater σ) (vs : VersionSettings)
    (maxUncompressed fuel length : Nat) (st : DecodeState σ) {r : HeaderDecodeResult}
    {st' : DecodeState σ} (h : decode infl vs maxUncompressed fuel st length = .ok (r, st')) :
    ∀ p ∈ r.headers, p.owned = false ∧ ∃ buf, st'.headerBuf = some buf ∧ p.str <:+: buf.data := by
  rcases decode_eq_ok h with ⟨-, rfl, -⟩ | ⟨z, buf, cursor, consumed, c, -, hp, -, -, rfl⟩
  · intro p hp
    cases hp
  · intro p hmem
    obtain ⟨hown, hinf⟩ := parseNameValues_borrows hp p hmem
    exact ⟨hown, buf, rfl, hinf⟩

theorem decode_borrows_copy :
    ∃ r st', decode Inflater.copy ⟨2, [], .inl rfl⟩ 64 2
        ⟨(), none, [[0, 1, 0, 1, 0x61, 0, 3, 0x62, 0, 0x63]], ⟨0, 0⟩⟩ 10 = .ok (r, st') ∧
      ∀ p ∈ r.headers, p.owned = false ∧ ∃ buf, st'.headerBuf = some buf ∧ p.str <:+: buf.data :=
  have h : decode Inflater.copy ⟨2, [], .inl rfl⟩ 64 2
      ⟨(), none, [[0, 1, 0, 1, 0x61, 0, 3, 0x62, 0, 0x63]], ⟨0, 0⟩⟩ 10 =
      .ok (⟨[⟨[0x61], false, false⟩, ⟨[0x62], false, false⟩, ⟨[0x61], false, true⟩,
          ⟨[0x63], false, true⟩], 10⟩,
        ⟨(), some ⟨[0, 1, 0, 1, 0x61, 0, 3, 0x62, 0, 0x63], 64, by decide⟩, [[]], ⟨10, 10⟩⟩) := rfl
  ⟨_, _, h, decode_borrows _ _ _ _ _ _ h⟩

end GzipHeaderCodec
