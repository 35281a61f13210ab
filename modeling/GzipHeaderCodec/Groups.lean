import GzipHeaderCodec.Runs

/-! The runs of a sort outcome: one run, and one entry in the image, per distinct `(code, name)`
pair, the name compared before it is lowercased. -/
namespace GzipHeaderCodec

/-- What the serializer compares: the code and the name as given. -/
def Header.key (h : Header) : Nat × Bytes := (h.code, h.name)

def Run.key (r : Run) : Nat × Bytes := (r.code, r.name)

def Run.headers (r : Run) : List Header := r.values.map fun v => ⟨r.code, r.name, v⟩

theorem sameKey_iff {a b : Header} : SameKey a b ↔ a.key = b.key := by
  simp [SameKey, Header.key]

theorem Run.continues_iff {r : Run} {h : Header} : r.Continues h ↔ h.key = r.key := by
  simp [Run.Continues, Header.key, Run.key]

@[simp] theorem Run.single_key (h : Header) : (Run.single h).key = h.key := rfl

@[simp] theorem Run.push_key (r : Run) (v : Bytes) : (r.push v).key = r.key := rfl

@[simp] theorem Run.single_headers (h : Header) : (Run.single h).headers = [h] := rfl

@[simp] theorem Run.push_headers (r : Run) (v : Bytes) :
    (r.push v).headers = r.headers ++ [⟨r.code, r.name, v⟩] := by
  simp [Run.headers, Run.push, Run.values]

theorem Run.key_of_mem_headers {r : Run} {h : Header} (hm : h ∈ r.headers) : h.key = r.key := by
  obtain ⟨v, -, rfl⟩ := List.mem_map.mp hm
  rfl

theorem groupRuns_flatten (r : Run) (hs : List Header) :
    (groupRuns (some r) hs).flatMap Run.headers = r.headers ++ hs := by
  induction hs generalizing r with
  | nil => simp [groupRuns]
  | cons h hs ih =>
    by_cases hc : r.Continues h
    · obtain ⟨hcode, hname⟩ := hc
      have hh : h = ⟨r.code, r.name, h.value⟩ := by rw [← hcode, ← hname]
      simp only [groupRuns, if_pos (show r.Continues h from ⟨hcode, hname⟩), ih,
        Run.push_headers, List.append_assoc, List.singleton_append, ← hh]
    · simp [groupRuns, hc, ih]

theorem runs_flatten (hs : List Header) : (runs hs).flatMap Run.headers = hs := by
  cases hs with
  | nil => rfl
  | cons h hs => simp [runs, groupRuns, groupRuns_flatten]

theorem mem_of_mem_runs {hs : List Header} {r : Run} {h : Header} (hr : r ∈ runs hs)
    (hh : h ∈ r.headers) : h ∈ hs := by
  rw [← runs_flatten hs]
  exact List.mem_flatMap.mpr ⟨r, hr, hh⟩

theorem mem_runs_key {hs : List Header} {k : Nat × Bytes} :
    k ∈ (runs hs).map Run.key ↔ k ∈ hs.map Header.key := by
  conv_rhs => rw [← runs_flatten hs]
  simp only [List.mem_map, List.mem_flatMap]
  constructor
  · rintro ⟨r, hr, rfl⟩
    exact ⟨_, ⟨r, hr, List.mem_map_of_mem _ (List.mem_cons_self r.first r.rest)⟩, rfl⟩
  · rintro ⟨h, ⟨r, hr, hm⟩, rfl⟩
    exact ⟨r, hr, (Run.key_of_mem_headers hm).symm⟩

theorem groupRuns_keys_nodup {r : Run} {h0 : Header} {hs : List Header} (hr : r.key = h0.key)
    (hsort : (h0 :: hs).Pairwise headerLe) : ((groupRuns (some r) hs).map Run.key).Nodup := by
  induction hs generalizing r h0 with
  | nil => simp [groupRuns]
  | cons h hs ih =>
    have htail : (h :: hs).Pairwise headerLe := (List.pairwise_cons.mp hsort).2
    by_cases hc : r.Continues h
    · simp only [groupRuns, if_pos hc]
      exact ih (by rw [Run.push_key, ← Run.continues_iff.mp hc]) htail
    · simp only [groupRuns, if_neg hc, List.map_cons, List.nodup_cons]
      refine ⟨fun hmem => ?_, ih rfl htail⟩
      have hmem' : r.key ∈ (runs (h :: hs)).map Run.key := hmem
      rw [mem_runs_key, List.map_cons, List.mem_cons] at hmem'
      rcases hmem' with heq | hmem'
      · exact hc (Run.continues_iff.mpr heq.symm)
      · obtain ⟨h', hh', hk⟩ := List.mem_map.mp hmem'
        have hbetween := sameKey_of_between (List.rel_of_pairwise_cons hsort (List.mem_cons_self h hs))
          (List.rel_of_pairwise_cons htail hh') (sameKey_iff.mpr (hk.trans hr).symm)
        exact hc (Run.continues_iff.mpr ((sameKey_iff.mp hbetween).symm.trans hr.symm))

theorem runs_keys_nodup {hs : List Header} (hsort : hs.Pairwise headerLe) :
    ((runs hs).map Run.key).Nodup := by
  cases hs with
  | nil => exact List.nodup_nil
  | cons h hs => exact groupRuns_keys_nodup rfl hsort

theorem runs_length {hs : List Header} (s : SortOutcome hs) :
    (runs s.sorted).length = (hs.map Header.key).dedup.length := by
  have hperm : ((runs s.sorted).map Run.key).Perm (s.sorted.map Header.key).dedup :=
    (List.perm_ext_iff_of_nodup (runs_keys_nodup s.ordered) (List.nodup_dedup _)).mpr
      fun k => by rw [List.mem_dedup, mem_runs_key]
  calc (runs s.sorted).length = ((runs s.sorted).map Run.key).length := (List.length_map _ _).symm
    _ = (s.sorted.map Header.key).dedup.length := hperm.length_eq
    _ = (hs.map Header.key).dedup.length := ((s.perm.map _).dedup).length_eq

theorem groupRuns_of_pairwise {h : Header} {hs : List Header}
    (hd : (h :: hs).Pairwise fun a b => a.key ≠ b.key) :
    groupRuns (some (Run.single h)) hs = (h :: hs).map Run.single := by
  induction hs generalizing h with
  | nil => rfl
  | cons h' hs ih =>
    have hne : ¬(Run.single h).Continues h' := fun hc =>
      List.rel_of_pairwise_cons hd (List.mem_cons_self h' hs)
        (Run.continues_iff.mp hc).symm
    simp only [groupRuns, if_neg hne, ih (List.pairwise_cons.mp hd).2, List.map_cons]

theorem runs_of_nodup {hs : List Header} (hd : (hs.map Header.key).Nodup) :
    runs hs = hs.map Run.single := by
  cases hs with
  | nil => rfl
  | cons h hs => exact groupRuns_of_pairwise (List.pairwise_map.mp hd)

theorem SortOutcome.sorted_eq_of_strict {hs l : List Header} (s : SortOutcome hs) (hl : l.Perm hs)
    (hlt : l.Pairwise fun a b => headerLt a b) : s.sorted = l := by
  have hperm := s.perm.trans hl.symm
  have hne : s.sorted.Pairwise fun a b => ¬SameKey a b :=
    (hlt.imp fun h hk => by rw [headerLt_of_sameKey hk] at h; cases h).perm hperm.symm
      fun h hk => h hk.symm
  have hlt' : s.sorted.Pairwise fun a b => headerLt a b := (s.ordered.and hne).imp fun ⟨hle, hk⟩ => by
    rcases headerLt_trichotomy _ _ with h | h | h
    · exact h
    · exact absurd h hk
    · rw [hle] at h; cases h
  exact @List.eq_of_perm_of_sorted _ _
    ⟨fun a b hab hba => absurd hba (by rw [headerLt_asymm hab]; decide)⟩ _ _ hperm hlt' hlt

/-- The count `encode` writes is the number of distinct `(code, name)` pairs of the headers, and
each pair is written as one entry. -/
theorem serialize_one_entry_per_key {w other : Nat} {hs : List Header} (s : SortOutcome hs)
    (hne : ∀ h ∈ hs, h.code ≠ other ∨ h.name ≠ []) :
    serialize w other s.sorted = .ok (appendSize w (hs.map Header.key).dedup.length ++
      (runs s.sorted).flatMap (Run.image w)) ∧ ((runs s.sorted).map Run.key).Nodup := by
  refine ⟨?_, runs_keys_nodup s.ordered⟩
  rw [serialize_eq fun h hh => hne h (s.perm.subset (List.mem_of_mem_head? hh)), runs_length]

theorem serialize_one_entry_per_key_example :
    (∀ h ∈ [(⟨1, [0x61], [0x62]⟩ : Header), ⟨1, [0x61], [0x63]⟩], h.code ≠ 0 ∨ h.name ≠ []) ∧
    serialize 2 0 (SortOutcome.insertion [⟨1, [0x61], [0x62]⟩, ⟨1, [0x61], [0x63]⟩]).sorted =
      .ok (appendSize 2 ([(⟨1, [0x61], [0x62]⟩ : Header), ⟨1, [0x61], [0x63]⟩].map
        Header.key).dedup.length ++
        (runs (SortOutcome.insertion [⟨1, [0x61], [0x62]⟩, ⟨1, [0x61], [0x63]⟩]).sorted).flatMap
          (Run.image 2)) ∧
    ((runs (SortOutcome.insertion [⟨1, [0x61], [0x62]⟩, ⟨1, [0x61], [0x63]⟩]).sorted).map
      Run.key).Nodup :=
  ⟨by decide, serialize_one_entry_per_key _ (by decide)⟩

/- The space `encode` reserves -/

/-- What `maxUncompressedSize` counts for one header: two size fields, the name and the value. -/
def reserveOf (w : Nat) (h : Header) : Nat := w + h.name.length + w + h.value.length

theorem maxUncompressedSize_eq (w : Nat) (hs : List Header) :
    maxUncompressedSize w hs = w + (hs.map (reserveOf w)).sum := by
  have h : ∀ a, hs.foldl (fun acc h => acc + w + h.name.length + w + h.value.length) a =
      a + (hs.map (reserveOf w)).sum := by
    induction hs with
    | nil => simp
    | cons h hs ih => intro a; simp [ih, reserveOf]; omega
  exact h w

theorem Run.joined_length (r : Run) :
    r.joined.length = r.first.length + (r.rest.map fun v => v.length + 1).sum := by
  obtain ⟨code, name, first, rest⟩ := r
  simp only [joined]
  induction rest generalizing first with
  | nil => simp
  | cons v vs ih => simp [ih]; omega

theorem Run.image_length (w : Nat) (r : Run) :
    (r.image w).length =
      2 * w + r.name.length + (r.values.map List.length).sum + (r.values.length - 1) := by
  simp only [Run.image, List.length_append, appendSize_length, List.length_map, Run.joined_length,
    Run.values, List.map_cons, List.sum_cons, List.length_cons, Nat.add_sub_cancel,
    List.sum_map_add, List.map_const', List.sum_replicate, smul_eq_mul, Nat.mul_one]
  omega

theorem Run.image_length_le {w : Nat} (r : Run) (h : 1 ≤ 2 * w + r.name.length) :
    (r.image w).length ≤ (r.headers.map (reserveOf w)).sum := by
  have hrest : (r.rest.map fun v => v.length + 1).sum ≤
      (r.rest.map fun v => w + r.name.length + w + v.length).sum :=
    List.sum_le_sum fun v _ => by omega
  simp only [Run.image, List.length_append, appendSize_length, List.length_map, Run.joined_length,
    Run.headers, Run.values, List.map_cons, List.map_map, List.sum_cons]
  simp only [reserveOf, Function.comp_def] at hrest ⊢
  omega

theorem runs_image_length_le {w : Nat} {hs : List Header} (s : SortOutcome hs)
    (hr : ∀ r ∈ runs s.sorted, 1 ≤ 2 * w + r.name.length) :
    (appendSize w (runs s.sorted).length ++ (runs s.sorted).flatMap (Run.image w)).length ≤
      maxUncompressedSize w hs := by
  have hruns : (s.sorted.map (reserveOf w)).sum =
      ((runs s.sorted).map fun r => (r.headers.map (reserveOf w)).sum).sum := by
    conv_lhs => rw [← runs_flatten s.sorted]
    rw [List.flatMap, List.map_flatten, List.sum_flatten, List.map_map, List.map_map]
    rfl
  rw [maxUncompressedSize_eq, ← (s.perm.map _).sum_eq, hruns, List.length_append,
    appendSize_length, List.length_flatMap]
  exact Nat.add_le_add_left (List.sum_le_sum fun r hr' => Run.image_length_le r (hr r hr')) w

/-- The image `encode` writes fits the `maxUncompressedSize` bytes it reserves for it, whatever
the sort outcome: the loop never writes past the buffer. -/
theorem serialize_length_le {w other : Nat} {hs : List Header} (s : SortOutcome hs) (hw : 1 ≤ w)
    {image : Bytes} (h : serialize w other s.sorted = .ok image) :
    image.length ≤ maxUncompressedSize w hs := by
  have hfirst : ∀ hd ∈ s.sorted.head?, hd.code ≠ other ∨ hd.name ≠ [] := by
    intro hd hhd
    by_contra! hc
    rw [List.eq_cons_of_mem_head? hhd, serialize_fault hc.1 hc.2] at h
    cases h
  rw [serialize_eq hfirst] at h
  cases h
  exact runs_image_length_le s fun _ _ => by omega

theorem serialize_length_le_example :
    1 ≤ 2 ∧ serialize 2 0 (SortOutcome.insertion [⟨1, [0x61], [0x62]⟩, ⟨1, [0x61], [0x63]⟩]).sorted =
      .ok [0, 1, 0, 1, 0x61, 0, 3, 0x62, 0, 0x63] ∧
    ([0, 1, 0, 1, 0x61, 0, 3, 0x62, 0, 0x63] : Bytes).length ≤
      maxUncompressedSize 2 [⟨1, [0x61], [0x62]⟩, ⟨1, [0x61], [0x63]⟩] :=
  have h : serialize 2 0 (SortOutcome.insertion [⟨1, [0x61], [0x62]⟩, ⟨1, [0x61], [0x63]⟩]).sorted =
      .ok [0, 1, 0, 1, 0x61, 0, 3, 0x62, 0, 0x63] := rfl
  ⟨by decide, h, serialize_length_le _ (by decide) h⟩

/-- The bytes `encode` writes for headers with nonempty names, at any width: the count, then for
each run two size fields, the name, its values and a NUL between each two; and no more than the
`maxUncompressedSize` it reserves. -/
theorem serialize_length_eq (w other : Nat) {hs : List Header} (s : SortOutcome hs)
    (hn : ∀ h ∈ hs, h.name ≠ []) :
    ∃ image, serialize w other s.sorted = .ok image ∧
      image.length = w + ((runs s.sorted).map fun r =>
        2 * w + r.name.length + (r.values.map List.length).sum + (r.values.length - 1)).sum ∧
      image.length ≤ maxUncompressedSize w hs := by
  have hfirst : ∀ h ∈ s.sorted.head?, h.code ≠ other ∨ h.name ≠ [] :=
    fun h hh => .inr (hn h (s.perm.subset (List.mem_of_mem_head? hh)))
  refine ⟨_, serialize_eq hfirst, ?_, runs_image_length_le s fun r hr => ?_⟩
  · simp only [List.length_append, appendSize_length, List.length_flatMap, Function.comp_def,
      Run.image_length]
  · have hname : r.name ≠ [] := hn _ (s.perm.subset
      (mem_of_mem_runs hr (List.mem_map_of_mem _ (List.mem_cons_self r.first r.rest))))
    have := List.length_pos.mpr hname
    omega

theorem serialize_length_eq_example :
    serialize 2 0 (SortOutcome.insertion [⟨1, [0x61], [0x62]⟩, ⟨1, [0x61], [0x63]⟩]).sorted =
      .ok [0, 1, 0, 1, 0x61, 0, 3, 0x62, 0, 0x63] ∧
    maxUncompressedSize 2 [⟨1, [0x61], [0x62]⟩, ⟨1, [0x61], [0x63]⟩] = 14 ∧
    (∀ h ∈ ([⟨1, [0x61], [0x62]⟩, ⟨1, [0x61], [0x63]⟩] : List Header), h.name ≠ []) ∧
    ∃ image, serialize 2 0
        (SortOutcome.insertion [⟨1, [0x61], [0x62]⟩, ⟨1, [0x61], [0x63]⟩]).sorted = .ok image ∧
      image.length = 2 + ((runs (SortOutcome.insertion
          [⟨1, [0x61], [0x62]⟩, ⟨1, [0x61], [0x63]⟩]).sorted).map fun r =>
        2 * 2 + r.name.length + (r.values.map List.length).sum + (r.values.length - 1)).sum ∧
      image.length ≤ maxUncompressedSize 2 [⟨1, [0x61], [0x62]⟩, ⟨1, [0x61], [0x63]⟩] :=
  ⟨rfl, rfl, by decide, serialize_length_eq 2 0 _ (by decide)⟩

def caseClashHeaders (code : Nat) : List Header := [⟨code, [0x41], [0x78]⟩, ⟨code, [0x61], [0x79]⟩]

/-- Whatever the order `std::sort` leaves, `A: x` and `a: y` are written as two entries, both
named `a`, under a count of `2`. -/
theorem serialize_case_clash (w other code : Nat) (s : SortOutcome (caseClashHeaders code)) :
    serialize w other s.sorted = .ok (appendSize w 2 ++ appendSize w 1 ++ [0x61] ++
      appendSize w 1 ++ [0x78] ++ appendSize w 1 ++ [0x61] ++ appendSize w 1 ++ [0x79]) := by
  have hs : s.sorted = caseClashHeaders code :=
    s.sorted_eq_of_strict (List.Perm.refl _) (by simp [caseClashHeaders, headerLt, nameLt])
  rw [hs, serialize_eq (by simp [caseClashHeaders])]
  simp [caseClashHeaders, runs, groupRuns, Run.Continues, Run.single, Run.image, Run.joined]
  decide

end GzipHeaderCodec
