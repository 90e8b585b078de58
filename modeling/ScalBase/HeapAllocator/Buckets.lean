/-
  HeapAllocator/Buckets.lean --- which bucket a size goes to.

  `GeneralPurposeAlloc` and `GeneralPurposeFree` find the bucket of a size through
  `ConvertAllocSizeToIndex`, here `bucketOf`.  The offset of 8 bits gives the sizes
  from 512 on the indexes from 1 on, so the two largest sizes that are routed to
  the buckets, `2^24` and `2^25`, get the indexes 16 and 17.
-/
import ScalBase.HeapAllocator.Calls

set_option autoImplicit false

namespace ScalBase.HeapAllocator

variable {size : Nat}

/-- The size of a request, rounded to the granularity: zero where that sum wraps. -/
theorem requestSize_cases (hword : size + sizeofMemNode < 2 ^ 64) :
    (size + sizeofMemNode + 512 ≤ 2 ^ 64 ∧ 512 ∣ requestSize size ∧
        size + sizeofMemNode ≤ requestSize size ∧
        requestSize size < size + sizeofMemNode + 512) ∨
      (2 ^ 64 < size + sizeofMemNode + 512 ∧ requestSize size = 0) := by
  have hmin : generalPurposeMin = 2 ^ 9 := rfl
  rw [requestSize, u64_eq hword, hmin]
  rcases Nat.lt_or_ge (2 ^ 64) (size + sizeofMemNode + 512) with hwrap | hfits
  · exact Or.inr ⟨hwrap, alignSize_wrap (by decide) hword hwrap⟩
  · exact Or.inl ⟨hfits, alignSize_spec (by decide) hfits⟩

theorem convert_two_pow : ∀ k : Fin 26, convertAllocSizeToIndex (2 ^ k.val) =
    if k.val < 8 then none else some (k.val - 8) := by
  decide

/-- What a size that is routed to the buckets is rounded to: a power of two from 512 on,
or one where the sum wraps, which has no index. -/
theorem roundedSize_cases (hword : size + sizeofMemNode < 2 ^ 64)
    (hsmall : requestSize size ≤ generalPurposeMax) :
    ∃ k : Fin 26, roundedSize size = 2 ^ k.val ∧
      (9 ≤ k.val ∧ size + sizeofMemNode ≤ 2 ^ k.val ∧
          (size + sizeofMemNode ≤ 2 ^ 23 → k.val ≤ 23) ∨
        k.val = 0 ∧ 2 ^ 23 < size + sizeofMemNode) := by
  have hround : roundedSize size = alignPowTwoCeil (requestSize size) :=
    if_neg (Nat.not_lt.mpr hsmall)
  have hmax : requestSize size ≤ 2 ^ 25 := hsmall
  rw [hround]
  rcases requestSize_cases hword with ⟨hfits, hdvd, hle, hlt⟩ | ⟨hwrap, hzero⟩
  · have hpos : 24 ≤ size + sizeofMemNode := Nat.le_add_left 24 size
    have hmin : 512 ≤ requestSize size := Nat.le_of_dvd (by omega) hdvd
    obtain ⟨k, hk, hge, hless⟩ :=
      alignPowTwoCeil_spec (show 1 < requestSize size by omega) (by omega)
    have h8 : 2 ^ 8 < 2 ^ k := by omega
    have h26 : 2 ^ k < 2 ^ 26 := by omega
    have hlo : size + sizeofMemNode ≤ 2 ^ k := hle.trans hge
    refine ⟨⟨k, (Nat.pow_lt_pow_iff_right (by decide)).mp h26⟩, hk, Or.inl
      ⟨(Nat.pow_lt_pow_iff_right (by decide)).mp h8, hlo, ?_⟩⟩
    intro hbound
    -- A multiple of 512 that is at most `2^23` rounds to a power at most `2^23`.
    have hle23 : requestSize size ≤ 2 ^ 23 := by
      obtain ⟨a, ha⟩ := hdvd
      omega
    have h24 : 2 ^ k < 2 ^ 24 := hless.trans_le (Nat.mul_le_mul_left 2 hle23)
    exact Nat.lt_succ_iff.mp ((Nat.pow_lt_pow_iff_right (by decide : 1 < 2)).mp h24)
  · refine ⟨⟨0, by decide⟩, ?_, Or.inr ⟨rfl, by omega⟩⟩
    rw [hzero]
    rfl

/-- The index is below the number of buckets exactly for the smaller sizes. -/
theorem bucketOf_isSome_iff (hword : size + sizeofMemNode < 2 ^ 64)
    (hsmall : requestSize size ≤ generalPurposeMax) :
    (bucketOf (roundedSize size)).isSome ↔ size + sizeofMemNode ≤ 2 ^ 23 := by
  obtain ⟨k, hk, hcases⟩ := roundedSize_cases hword hsmall
  rw [hk, bucketOf, convert_two_pow]
  rcases hcases with ⟨h9, hle, h23⟩ | ⟨h0, hlt⟩
  · rw [if_neg (by omega), Option.bind_some]
    by_cases hindex : k.val - 8 < 16
    · rw [dif_pos hindex]
      have hpow : 2 ^ k.val ≤ 2 ^ 23 := Nat.pow_le_pow_right (by decide) (by omega)
      exact iff_of_true rfl (hle.trans hpow)
    · rw [dif_neg hindex]
      refine iff_of_false (by decide) fun hbound => ?_
      have hk23 := h23 hbound
      omega
  · rw [if_pos (by omega)]
    exact iff_of_false (by decide) (Nat.not_le.mpr hlt)

/-- Two sizes that are routed to the buckets have the same index exactly when they are
rounded to the same power of two. -/
theorem index_eq_iff {size' : Nat} (hword : size + sizeofMemNode < 2 ^ 64)
    (hsmall : requestSize size ≤ generalPurposeMax) (hword' : size' + sizeofMemNode < 2 ^ 64)
    (hsmall' : requestSize size' ≤ generalPurposeMax) :
    convertAllocSizeToIndex (roundedSize size) = convertAllocSizeToIndex (roundedSize size') ↔
      roundedSize size = roundedSize size' := by
  refine ⟨fun h => ?_, fun h => congrArg _ h⟩
  obtain ⟨k, hk, hcases⟩ := roundedSize_cases hword hsmall
  obtain ⟨k', hk', hcases'⟩ := roundedSize_cases hword' hsmall'
  rw [hk, hk', convert_two_pow, convert_two_pow] at h
  rw [hk, hk']
  -- The index is the exponent less 8, and none for the exponent 0.
  have heq : k.val = k'.val := by
    split_ifs at h with hlow hlow' hlow'
    · omega
    · have hsub := Option.some.inj h
      omega
  rw [heq]

/-- A size has a valid bucket: its index is below the number of buckets, a request for
it makes no access outside `Buckets` in any state, nor does a block of that size when
it is freed, and the sizes with the same index are those rounded to the same power. -/
structure ValidBucket (size : Nat) : Prop where
  index : ∃ index, convertAllocSizeToIndex (roundedSize size) = some index ∧ index < 16
  alloc : ∀ fuel memory a, (generalPurposeAlloc fuel memory a size).isSome
  free : ∀ (memory : Memory) block, (memory block).size = roundedSize size →
    (bucketOf (memory block).size).isSome
  shared : ∀ size', size' + sizeofMemNode < 2 ^ 64 → requestSize size' ≤ generalPurposeMax →
    (convertAllocSizeToIndex (roundedSize size) = convertAllocSizeToIndex (roundedSize size') ↔
      roundedSize size = roundedSize size')

/-- A size that is routed to the buckets has a valid one exactly when it is at most
`2^23` with its header. -/
theorem validBucket_iff (hword : size + sizeofMemNode < 2 ^ 64)
    (hsmall : requestSize size ≤ generalPurposeMax) :
    ValidBucket size ↔ size + sizeofMemNode ≤ 2 ^ 23 := by
  rw [← bucketOf_isSome_iff hword hsmall]
  constructor
  · rintro ⟨⟨index, hindex, hlt⟩, -, -, -⟩
    rw [bucketOf, hindex, Option.bind_some, dif_pos hlt]
    rfl
  · intro hvalid
    obtain ⟨i, hi⟩ := Option.isSome_iff_exists.mp hvalid
    refine ⟨?_, fun fuel memory a => ?_, fun memory block hsize => by rw [hsize]; exact hvalid,
      fun size' hword' hsmall' => index_eq_iff hword hsmall hword' hsmall'⟩
    · obtain ⟨index, hindex, hbucket⟩ := Option.bind_eq_some_iff.mp hi
      refine ⟨index, hindex, ?_⟩
      split_ifs at hbucket with hlt
      exact hlt
    · rw [generalPurposeAlloc, takeFree, if_neg (Nat.not_lt.mpr hsmall), hi]
      rfl

/-- The largest block of the last bucket. -/
theorem validBucket_last : ValidBucket (2 ^ 23 - 24) :=
  (validBucket_iff (by decide) (by decide)).mpr (by decide)

/-- One byte more is rounded to `2^24`, which has the index 16. -/
theorem no_bucket_16 : ¬ ValidBucket (2 ^ 23 - 23) := by
  rintro ⟨⟨index, hindex, hlt⟩, -⟩
  have h16 : convertAllocSizeToIndex (roundedSize (2 ^ 23 - 23)) = some 16 := by decide
  rw [h16] at hindex
  cases hindex
  exact absurd hlt (by decide)

end ScalBase.HeapAllocator
