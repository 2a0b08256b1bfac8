import Asm6510.Reference.Basic
import Mathlib

/-!
# The region at an address

The table of a memory map is filled region by region and address by address, and a later region
overwrites an earlier one.

* `MemoryRegion.Covers`: an address lies between the first and the last one of a region.

Main statement: `regionAt?_iff`, what is found at an address is the last region of the list that
covers it. One more region changes the table where it covers an address
(`getElem?_memoryTable_concat`), so the table holds the last one (`getElem?_memoryTable`).
-/

namespace Asm6510

/-- An address lies in a region, which may go on beyond the last address of the machine. -/
def MemoryRegion.Covers (r : MemoryRegion) (a : Int) : Prop :=
  r.address ≤ a ∧ a ≤ r.lastAddress

instance (r : MemoryRegion) (a : Int) : Decidable (r.Covers a) :=
  inferInstanceAs (Decidable (_ ∧ _))

namespace Reference

/-! ## One region -/

theorem mem_coveredAddresses {r : MemoryRegion} {a : Nat} :
    a ∈ coveredAddresses r ↔ r.Covers a ∧ a ≤ lastAddress := by
  have hrange : a ∈ coveredAddresses r ↔
      ∃ i < ((min r.lastAddress lastAddress + 1) - r.address).toNat, r.address + i = a := by
    simp [coveredAddresses]
  rw [hrange, MemoryRegion.Covers]
  constructor
  · rintro ⟨i, hi, rfl⟩
    generalize r.lastAddress = last at hi ⊢
    omega
  · rintro ⟨⟨hfirst, hlast⟩, htop⟩
    exact ⟨a - r.address, by omega, by omega⟩

theorem getElem?_foldl_insert (addresses : List Nat) (r : MemoryRegion)
    (table : Std.HashMap Nat MemoryRegion) (a : Nat) :
    (addresses.foldl (fun t a => t.insert a r) table)[a]? =
      if a ∈ addresses then some r else table[a]? := by
  induction addresses generalizing table with
  | nil => simp
  | cons b addresses ih =>
    rw [List.foldl_cons, ih, Std.HashMap.getElem?_insert]
    by_cases hlater : a ∈ addresses
    · simp [hlater]
    · by_cases hb : b = a
      · simp [hb]
      · simp [hlater, hb, Ne.symm hb]

/-! ## All regions -/

/-- One more region takes over the addresses that it covers. -/
theorem getElem?_memoryTable_concat (regions : List MemoryRegion) (r : MemoryRegion) (a : Nat) :
    (memoryTable (regions ++ [r]))[a]? =
      if r.Covers a ∧ a ≤ lastAddress then some r else (memoryTable regions)[a]? := by
  rw [memoryTable, List.foldl_append]
  show ((coveredAddresses r).foldl (fun t a => t.insert a r) (memoryTable regions))[a]? = _
  rw [getElem?_foldl_insert]
  simp only [mem_coveredAddresses]

/-- The table holds the last region that covers an address. -/
theorem getElem?_memoryTable (regions : List MemoryRegion) {a : Nat} (ha : a ≤ lastAddress) :
    (memoryTable regions)[a]? = regions.reverse.find? fun r => r.Covers a := by
  induction regions using List.reverseRecOn with
  | nil => simp [memoryTable]
  | append_singleton regions r ih =>
    rw [getElem?_memoryTable_concat, ih, List.reverse_concat, List.find?_cons]
    by_cases hr : r.Covers a
    · simp [hr, ha]
    · simp [hr]

theorem getElem?_memoryTable_beyond (regions : List MemoryRegion) {a : Nat}
    (ha : lastAddress < a) : (memoryTable regions)[a]? = none := by
  induction regions using List.reverseRecOn with
  | nil => simp [memoryTable]
  | append_singleton regions r ih =>
    rw [getElem?_memoryTable_concat, ih, if_neg fun h => absurd h.2 (Nat.not_le.2 ha)]

theorem regionAt?_eq (mnemonics : List Mnemonic) (language : Language)
    (regions : List MemoryRegion) (a : Int) :
    (ofRecords mnemonics language regions).regionAt? a =
      if 0 ≤ a ∧ a ≤ lastAddress then regions.reverse.find? fun r => r.Covers a else none := by
  show (if 0 ≤ a then (memoryTable regions)[a.toNat]? else none) = _
  by_cases hfirst : 0 ≤ a
  · obtain ⟨n, rfl⟩ := Int.eq_ofNat_of_zero_le hfirst
    rw [if_pos hfirst, Int.toNat_natCast]
    by_cases hlast : n ≤ lastAddress
    · rw [getElem?_memoryTable regions hlast, if_pos ⟨hfirst, Int.ofNat_le.2 hlast⟩]
    · rw [getElem?_memoryTable_beyond regions (Nat.not_le.1 hlast),
        if_neg fun h => hlast (Int.ofNat_le.1 h.2)]
  · rw [if_neg hfirst, if_neg fun h => hfirst h.1]

theorem last_covers_iff {regions : List MemoryRegion} {a : Int} {r : MemoryRegion} :
    (regions.reverse.find? fun r => r.Covers a) = some r ↔
      ∃ before behind, regions = before ++ r :: behind ∧ r.Covers a ∧
        ∀ q ∈ behind, ¬ q.Covers a := by
  rw [List.find?_eq_some_iff_append]
  constructor
  · rintro ⟨hr, behind, before, hsplit, hbehind⟩
    refine ⟨before.reverse, behind.reverse, ?_, of_decide_eq_true hr, fun q hq => ?_⟩
    · rw [← List.reverse_reverse regions, hsplit]
      simp
    · simpa using hbehind q (List.mem_reverse.1 hq)
  · rintro ⟨before, behind, rfl, hr, hbehind⟩
    refine ⟨decide_eq_true hr, behind.reverse, before.reverse, by simp, fun q hq => ?_⟩
    simpa using hbehind q (List.mem_reverse.1 hq)

/-- **The region at an address is the last one that covers it.** For every list of regions, however
they overlap and however far they reach, a region is found at an address exactly if the address is
one of the machine, the region covers it, and none behind it in the list does. Nothing is found
exactly if the address is none of the machine, or no region covers it. -/
theorem regionAt?_iff (mnemonics : List Mnemonic) (language : Language)
    (regions : List MemoryRegion) (a : Int) :
    let ref := ofRecords mnemonics language regions
    (∀ r, ref.regionAt? a = some r ↔
      (0 ≤ a ∧ a ≤ 0xffff) ∧ ∃ before behind, regions = before ++ r :: behind ∧
        (r.address ≤ a ∧ a ≤ r.lastAddress) ∧
        ∀ q ∈ behind, ¬ (q.address ≤ a ∧ a ≤ q.lastAddress)) ∧
    (ref.regionAt? a = none ↔
      ¬ (0 ≤ a ∧ a ≤ 0xffff) ∨ ∀ r ∈ regions, ¬ (r.address ≤ a ∧ a ≤ r.lastAddress)) := by
  dsimp only
  rw [regionAt?_eq]
  by_cases ha : 0 ≤ a ∧ a ≤ lastAddress
  · rw [if_pos ha]
    refine ⟨fun r => ?_, ?_⟩
    · rw [last_covers_iff]
      exact ⟨fun h => ⟨ha, h⟩, fun h => h.2⟩
    · rw [List.find?_eq_none]
      refine ⟨fun h => .inr fun r hr hcovers => ?_, fun h r hr hcovers => ?_⟩
      · exact h r (List.mem_reverse.2 hr) (decide_eq_true hcovers)
      · exact h.elim (absurd ha) fun h => h r (List.mem_reverse.1 hr) (of_decide_eq_true hcovers)
  · rw [if_neg ha]
    refine ⟨fun r => ⟨fun h => ?_, fun h => absurd h.1 ha⟩, fun _ => .inl ha, fun _ => rfl⟩
    exact absurd h.symm (Option.some_ne_none r)

end Reference

end Asm6510
