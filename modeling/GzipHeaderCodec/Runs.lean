import GzipHeaderCodec.Encode

/-! What the serialization loop writes: the sorted list cut into maximal runs of one code and
name, each written once with its values joined by NUL (`serialize_eq`). -/
namespace GzipHeaderCodec

/-- A maximal run of sort-adjacent headers with one code and name: the name as the headers
carry it, and the values in order, `first` then `rest`. -/
structure Run where
  code : Nat
  name : Bytes
  first : Bytes
  rest : List Bytes
deriving DecidableEq, Repr

namespace Run

def single (h : Header) : Run := ⟨h.code, h.name, h.value, []⟩

def push (r : Run) (v : Bytes) : Run := { r with rest := r.rest ++ [v] }

def values (r : Run) : List Bytes := r.first :: r.rest

/-- The run's value as the loop builds it: `first`, then a NUL and the next value, and so on. -/
def joined (r : Run) : Bytes := r.rest.foldl (fun acc v => acc ++ 0 :: v) r.first

def image (w : Nat) (r : Run) : Bytes :=
  appendSize w r.name.length ++ r.name.map toLowerAscii ++ appendSize w r.joined.length ++ r.joined

def Continues (r : Run) (h : Header) : Prop := h.code = r.code ∧ h.name = r.name

instance (r : Run) (h : Header) : Decidable (r.Continues h) := inferInstanceAs (Decidable (_ ∧ _))

@[simp] theorem single_joined (h : Header) : (single h).joined = h.value := rfl

@[simp] theorem single_name (h : Header) : (single h).name = h.name := rfl

@[simp] theorem single_code (h : Header) : (single h).code = h.code := rfl

@[simp] theorem push_joined (r : Run) (v : Bytes) : (r.push v).joined = r.joined ++ 0 :: v := by
  simp [push, joined, List.foldl_append]

@[simp] theorem push_name (r : Run) (v : Bytes) : (r.push v).name = r.name := rfl

@[simp] theorem push_code (r : Run) (v : Bytes) : (r.push v).code = r.code := rfl

end Run

def groupRuns : Option Run → List Header → List Run
  | none, [] => []
  | some r, [] => [r]
  | none, h :: hs => groupRuns (some (Run.single h)) hs
  | some r, h :: hs =>
    if r.Continues h then groupRuns (some (r.push h.value)) hs
    else r :: groupRuns (some (Run.single h)) hs

def runs (hs : List Header) : List Run := groupRuns none hs

theorem patch_append {A F C G : Bytes} {p : Nat} (hA : A.length = p) (hF : F.length = G.length) :
    patch (A ++ F ++ C) p G = A ++ G ++ C := by
  subst hA
  simp [patch, List.take_append_of_le_length, List.drop_append_eq_append_drop, hF]

/-- The loop state after the runs `closed` and the open run `r`: the count slot, the closed
runs' images and `r`'s image are written, `lastValueLenPtr` points at `r`'s value length and
`lastValueLen` is the length of `r`'s joined value. -/
structure Tracks (w : Nat) (st : EncodeState) (closed : List Run) (r : Run) : Prop where
  buf_eq : st.buf = List.replicate w 0 ++ closed.flatMap (Run.image w) ++ r.image w
  lastCode_eq : st.lastCode = r.code
  lastName_eq : st.lastName = r.name
  ptr_eq : st.lastValueLenPtr =
    some ((List.replicate w 0 ++ closed.flatMap (Run.image w)).length + w + r.name.length)
  len_eq : st.lastValueLen = r.joined.length
  num_eq : st.numHeaders = closed.length + 1

section Steps

variable {w : Nat} {st : EncodeState} {closed : List Run} {r : Run} {h : Header}

theorem encodeStep_new (ht : Tracks w st closed r) (hn : ¬ r.Continues h) :
    ∃ st', encodeStep w st h = .ok st' ∧ Tracks w st' (closed ++ [r]) (Run.single h) := by
  have hcond : h.code ≠ st.lastCode ∨ h.name ≠ st.lastName := by
    rw [ht.lastCode_eq, ht.lastName_eq]
    exact not_and_or.mp hn
  refine ⟨_, by simp only [encodeStep, if_pos hcond]; rfl, ?_⟩
  constructor <;> simp [ht.buf_eq, ht.num_eq, Run.image]
  omega

theorem encodeStep_push (ht : Tracks w st closed r) (hc : r.Continues h) :
    ∃ st', encodeStep w st h = .ok st' ∧ Tracks w st' closed (r.push h.value) := by
  have hcond : ¬ (h.code ≠ st.lastCode ∨ h.name ≠ st.lastName) := by
    rw [ht.lastCode_eq, ht.lastName_eq, not_or, not_not, not_not]
    exact hc
  refine ⟨_, by simp only [encodeStep, if_neg hcond, ht.ptr_eq]; rfl, ?_⟩
  have hbuf : st.buf ++ 0 :: h.value =
      (List.replicate w 0 ++ closed.flatMap (Run.image w) ++ appendSize w r.name.length ++
        r.name.map toLowerAscii) ++ appendSize w r.joined.length ++ (r.joined ++ 0 :: h.value) := by
    simp [ht.buf_eq, Run.image]
  constructor
  · simp only [hbuf, ht.len_eq]
    rw [patch_append (by simp; omega) (by simp)]
    simp only [Run.image, Run.push_joined, Run.push_name, List.append_assoc, List.length_append,
      List.length_cons, Nat.add_comm 1]
  all_goals simp [ht.lastCode_eq, ht.lastName_eq, ht.ptr_eq, ht.len_eq, ht.num_eq]; try omega

theorem encodeStep_init {other : Nat} (hne : h.code ≠ other ∨ h.name ≠ []) :
    ∃ st', encodeStep w (encodeInit w other) h = .ok st' ∧ Tracks w st' [] (Run.single h) := by
  refine ⟨_, by simp only [encodeStep, encodeInit, if_pos hne]; rfl, ?_⟩
  constructor <;> simp [encodeInit, Run.image]
  omega

theorem encodeLoop_tracks (ht : Tracks w st closed r) (hs : List Header) :
    ∃ st', encodeLoop w st hs = .ok st' ∧
      st'.buf = List.replicate w 0 ++ (closed ++ groupRuns (some r) hs).flatMap (Run.image w) ∧
      st'.numHeaders = (closed ++ groupRuns (some r) hs).length := by
  induction hs generalizing st closed r with
  | nil => exact ⟨st, rfl, by simp [groupRuns, ht.buf_eq], by simp [groupRuns, ht.num_eq]⟩
  | cons h hs ih =>
    by_cases hc : r.Continues h
    · obtain ⟨st', hstep, ht'⟩ := encodeStep_push ht hc
      obtain ⟨st'', hloop, hbuf, hnum⟩ := ih ht'
      exact ⟨st'', by simp [encodeLoop, hstep, hloop, Except.bind],
        by simp [groupRuns, hc, hbuf], by simp [groupRuns, hc, hnum]⟩
    · obtain ⟨st', hstep, ht'⟩ := encodeStep_new ht hc
      obtain ⟨st'', hloop, hbuf, hnum⟩ := ih ht'
      exact ⟨st'', by simp [encodeLoop, hstep, hloop, Except.bind],
        by simp [groupRuns, hc, hbuf], by simp [groupRuns, hc, hnum]⟩

end Steps

/-- The image `encode` writes: the number of runs, then each run once. It needs only that the
first sorted header is not the loop's starting point `(HTTP_HEADER_OTHER, "")`. -/
theorem serialize_eq {w other : Nat} {sorted : List Header}
    (hfirst : ∀ h ∈ sorted.head?, h.code ≠ other ∨ h.name ≠ []) :
    serialize w other sorted =
      .ok (appendSize w (runs sorted).length ++ (runs sorted).flatMap (Run.image w)) := by
  cases sorted with
  | nil =>
    have := @patch_append [] (List.replicate w 0) [] (appendSize w 0) 0 rfl (by simp)
    simp_all [serialize, encodeLoop, encodeInit, runs, groupRuns, Except.map]
  | cons h hs =>
    obtain ⟨st, hstep, ht⟩ : ∃ st', encodeStep w (encodeInit w other) h = .ok st' ∧
        Tracks w st' [] (Run.single h) := encodeStep_init (hfirst h rfl)
    obtain ⟨st', hloop, hbuf, hnum⟩ := encodeLoop_tracks ht hs
    have hp := @patch_append [] (List.replicate w 0)
      ((groupRuns (some (Run.single h)) hs).flatMap (Run.image w))
      (appendSize w (groupRuns (some (Run.single h)) hs).length) 0 rfl (by simp)
    simp only [List.nil_append, List.length_nil] at hp
    simp [serialize, encodeLoop, hstep, hloop, Except.bind, Except.map, hbuf, hp, hnum, runs,
      groupRuns]

theorem serialize_pair {w other code : Nat} {n v v' : Bytes} (hn : n ≠ []) :
    serialize w other [⟨code, n, v⟩, ⟨code, n, v'⟩] = .ok (appendSize w 1 ++ appendSize w n.length ++
      n.map toLowerAscii ++ appendSize w (v ++ 0 :: v').length ++ (v ++ 0 :: v')) := by
  rw [serialize_eq (by simp [hn])]
  simp [runs, groupRuns, Run.Continues, Run.single, Run.push, Run.image, Run.joined]

/-- Two headers `a` whose values, `32768` bytes each, fit a SPDY/2 length field: their joined
value has `65537` bytes, and the field in front of it, written modulo `2^16`, says `1`. -/
theorem serialize_joined_length_wraps (other code : Nat)
    (s : SortOutcome (List.replicate 2 ⟨code, [0x61], List.replicate 32768 0x62⟩)) :
    serialize 2 other s.sorted = .ok ([0, 1, 0, 1, 0x61, 0, 1] ++
      (List.replicate 32768 0x62 ++ 0 :: List.replicate 32768 0x62)) ∧
    (List.replicate 32768 0x62 ++ 0 :: List.replicate 32768 (0x62 : UInt8)).length = 65537 := by
  have hlen : (List.replicate 32768 0x62 ++ 0 :: List.replicate 32768 (0x62 : UInt8)).length =
      65537 := by rw [List.length_append, List.length_cons, List.length_replicate]
  refine ⟨?_, hlen⟩
  rw [List.perm_replicate.mp s.perm, List.replicate_succ, List.replicate_one,
    serialize_pair (List.cons_ne_nil _ _), hlen]
  rfl

theorem serialize_fault {w other : Nat} {h : Header} {hs : List Header} (hc : h.code = other)
    (hn : h.name = []) : serialize w other (h :: hs) = .error .nullValueLenPtr := by
  simp [serialize, encodeLoop, encodeStep, encodeInit, hc, hn, Except.bind, Except.map]

/-- `encode` on the one header `(HTTP_HEADER_OTHER, "")`, whatever its value: the first pass of the
loop already combines, through `lastValueLenPtr == nullptr`. -/
theorem encode_other_empty_name {σ : Type} (w other : Nat) (v : Bytes)
    (deflate : σ → Bytes → σ × Bytes) (z : σ) (s : SortOutcome [⟨other, [], v⟩]) :
    encode w other deflate z s = .error .nullValueLenPtr := by
  rw [encode, List.perm_singleton.mp s.perm, @serialize_fault w other ⟨other, [], v⟩ [] rfl rfl]
  rfl

end GzipHeaderCodec
