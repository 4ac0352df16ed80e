import OpenAAA.Mem.MapRounds

/-!
How large a mapping `vm_area_size` asks for. The sum is formed in 32 bits and widened
when it is returned, so a map of nearly 4 GiB or more gets a mapping that is shorter
than its pages.
-/

namespace OpenAAA.Paging

open Memory Sys

/-- The mapping is of whole pages and has room for the header and all pages of the map, which
lie in the area that `vm_area_init` maps wherever the system puts it. -/
structure AreaHolds (shift total : Nat) : Prop where
  whole : cpuPageSize ∣ vmAreaSize shift total
  room : cpuPageSize + total * 2 ^ shift ≤ vmAreaSize shift total
  pages : ∀ w addr, addr + vmAreaSize shift total ≤ 2 ^ 64 →
    (vmAreaInit w addr shift total).2 = some addr ∧
      (vmAreaInit w addr shift total).1.mapping = some (addr, vmAreaSize shift total) ∧
      ∀ i < total, Inside (getPage (vmAreaInit w addr shift total).1.mem addr i) (2 ^ shift)
        addr (vmAreaSize shift total)

variable {shift total : Nat}

theorem vmAreaSize_lt (shift total : Nat) : vmAreaSize shift total < 2 ^ 32 :=
  Nat.mod_lt _ (by decide)

/-- Without a wrap, the pages are rounded up to whole ones and a page is put in front. -/
theorem vmAreaSize_of_fits (hshift : shift < 32)
    (hfits : total * 2 ^ shift + 2 * cpuPageSize ≤ 2 ^ 32) :
    vmAreaSize shift total = cpuPageSize + roundUp (total * 2 ^ shift) cpuPageSize := by
  have hpow : 2 ^ shift < 2 ^ 32 := Nat.pow_lt_pow_right (by decide) hshift
  have hpage : cpuPageSize = 4096 := rfl
  have hproduct : total * 2 ^ shift < 2 ^ 32 := by omega
  have hround : roundUp (total * 2 ^ shift) cpuPageSize + 2 * cpuPageSize ≤ 2 ^ 32 := by
    generalize total * 2 ^ shift = t at hfits
    unfold roundUp
    rw [hpage] at hfits ⊢
    omega
  rw [vmAreaSize, Nat.mod_eq_of_lt hpow, Nat.mul_comm (2 ^ shift), Nat.mod_eq_of_lt hproduct,
    alignTo_eq_roundUp (by omega), Nat.mod_eq_of_lt (by omega)]

theorem le_vmAreaSize (hshift : shift < 32)
    (hfits : total * 2 ^ shift + 2 * cpuPageSize ≤ 2 ^ 32) :
    cpuPageSize + total * 2 ^ shift ≤ vmAreaSize shift total := by
  rw [vmAreaSize_of_fits hshift hfits]
  have hpage : cpuPageSize = 4096 := rfl
  generalize total * 2 ^ shift = t
  unfold roundUp
  rw [hpage]
  omega

/-- A page of the map ends where the pages end, or before. -/
theorem pageAt_inside {addr i size : Nat} (hi : i < total)
    (hroom : cpuPageSize + total * 2 ^ shift ≤ size) :
    Inside (pageAt addr shift i) (2 ^ shift) addr size := by
  have hend : (i + 1) * 2 ^ shift ≤ total * 2 ^ shift := Nat.mul_le_mul_right _ hi
  rw [Nat.add_mul, Nat.one_mul] at hend
  unfold Inside pageAt
  omega

theorem vmAreaInit_pages (hshift : shift < 32) (htotal : total < 2 ^ 32)
    (hroom : cpuPageSize + total * 2 ^ shift ≤ vmAreaSize shift total) (w : World) {addr : Nat}
    (haddr : addr + vmAreaSize shift total ≤ 2 ^ 64) :
    (vmAreaInit w addr shift total).2 = some addr ∧
      (vmAreaInit w addr shift total).1.mapping = some (addr, vmAreaSize shift total) ∧
      ∀ i < total, Inside (getPage (vmAreaInit w addr shift total).1.mem addr i) (2 ^ shift)
        addr (vmAreaSize shift total) := by
  have hpage : cpuPageSize = 4096 := rfl
  have hcreated : (vmAreaInit w addr shift total).2 = some addr := by
    have hne : vmAreaSize shift total ≠ 0 := by omega
    simp only [vmAreaInit, if_neg hne]
  refine ⟨hcreated, (vmAreaInit_mapping hcreated).2.2, fun i hi => ?_⟩
  have hpos : 0 < total * 2 ^ shift := Nat.mul_pos (Nat.zero_lt_of_lt hi) (by positivity)
  have hkept := HeaderKept.init hcreated (by omega) htotal (by omega)
  rw [getPage_eq hkept.shift_eq hkept.page]
  exact pageAt_inside hi hroom

/-- The mapping holds the map exactly when the pages, with one in front and one to round up to,
stay within 32 bits. -/
theorem areaHolds_iff (shift total : Nat) (hshift : shift < 32) (htotal : total < 2 ^ 32) :
    AreaHolds shift total ↔ total * 2 ^ shift + 2 * cpuPageSize ≤ 2 ^ 32 := by
  constructor
  · rintro ⟨⟨pages, hpages⟩, hroom, _⟩
    have hlt := vmAreaSize_lt shift total
    have hpage : cpuPageSize = 4096 := rfl
    rw [hpages] at hroom hlt
    rw [hpage] at hroom hlt ⊢
    omega
  · intro hfits
    have hroom := le_vmAreaSize hshift hfits
    exact ⟨vmAreaSize_dvd shift total, hroom,
      fun w addr haddr => vmAreaInit_pages hshift htotal hroom w haddr⟩

/-- A map of a thousand pages of 4 KiB. -/
theorem areaHolds_thousand_pages :
    1000 * 2 ^ 12 + 2 * cpuPageSize ≤ 2 ^ 32 ∧ AreaHolds 12 1000 :=
  ⟨by decide, (areaHolds_iff 12 1000 (by decide) (by decide)).mpr (by decide)⟩

/-- A map of 4 GiB gets a mapping of one page. -/
theorem not_areaHolds_four_gib : vmAreaSize 12 (2 ^ 20) = cpuPageSize ∧ ¬ AreaHolds 12 (2 ^ 20) := by
  have hsize : vmAreaSize 12 (2 ^ 20) = cpuPageSize := by decide
  refine ⟨hsize, fun h => ?_⟩
  have hroom := h.room
  rw [hsize] at hroom
  exact absurd hroom (by decide)

end OpenAAA.Paging
