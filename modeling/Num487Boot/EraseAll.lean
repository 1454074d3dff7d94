import Num487Boot.ReadBack

/-!
# Erasing the Application Section

`flash_erase_app_all` compares with the inclusive end of the section, steps by four pages and
collects the signed results of `FMC_Erase_Block` in a byte. It erases the blocks of the section
and no other, does not stop at a failure, and no failure is lost in the byte.

## Main results

* `eraseBlocks_fuel`: the bound on the iterations is never what ends the loop.
* `eraseAppAll_exact`: the requests, the flash and the result.
-/

namespace Num487Boot

open Exec Memory

/-- More iterations than there are blocks to go make no difference. -/
theorem eraseBlocks_fuel {n m b : ℕ} (hb : b + n = 32) (hm : n < m) (res : UInt8) (s : Machine) :
    eraseBlocks m (.ofNat (16384 * b)) res s = eraseBlocks (n + 1) (.ofNat (16384 * b)) res s := by
  obtain ⟨m, rfl⟩ : ∃ k, m = k + 1 := ⟨m - 1, by omega⟩
  induction n generalizing m b res s with
  | zero =>
      obtain rfl : b = 32 := hb
      rw [eraseBlocks_end, eraseBlocks_end]
  | succ n ih =>
      obtain ⟨m, rfl⟩ : ∃ k, m = k + 1 := ⟨m - 1, by omega⟩
      rw [eraseBlocks_succ (m + 1) (by omega), eraseBlocks_succ (n + 1) (by omega)]
      exact ih (by omega) _ _ m (by omega)

/-- The number of the 16 KiB block an event asks to erase, by the address of its first byte. -/
def Event.erasedBlock : Event → Option ℕ
  | .isp (.blockErase addr) _ =>
      if addr.toNat % 16384 = 0 then some (addr.toNat / 16384) else none
  | .isp _ _ | .accept _ _ | .tx _ | .lfs _ _ _ _ => none

/-- The blocks of the application section, from the first to the last. -/
def appBlocks : List ℕ :=
  List.range' (userAppStart.toNat / 16384)
    ((userAppEnd.toNat + 1 - userAppStart.toNat) / 16384)

/-- The erase of a block names it. -/
theorem erasedBlock_blockCommand {b : ℕ} (hb : b ≤ 32) (v : IspVerdict) :
    (Event.isp (blockCommand b) v).erasedBlock = some b := by
  have haddr := toNat_blockStart hb
  rw [blockCommand, Event.erasedBlock, haddr, if_pos (Nat.mul_mod_right 16384 b),
    Nat.mul_div_cancel_left b (by decide)]

/-- **Erase of the application section.** Whatever the flash holds and whatever becomes of each
erase, the loop ends after asking for the blocks of the section, each once and in order, and for
nothing else. The bytes outside the section stay, those of a block whose erase was done are
`0xFF` whatever became of the others, and the result is 0 exactly when every erase was done. -/
theorem eraseAppAll_exact (s : Machine) :
    ∃ r t es, (∀ n ≥ 29, eraseBlocks n userAppStart 0 s = .ok r t) ∧
      flashEraseAppAll s = .ok r t ∧ FmcStep s t ∧ t.trace = s.trace ++ es ∧
      es.map Event.erasedBlock = appBlocks.map some ∧
      (∀ a, ¬ (userAppStart.toNat ≤ a ∧ a ≤ userAppEnd.toNat) →
        t.flash.byteAt a = s.flash.byteAt a) ∧
      (∀ addr a, .isp (.blockErase addr) .done ∈ es → a / 16384 = addr.toNat / 16384 →
        t.flash.byteAt a = 0xFF) ∧
      (r = 0 ↔ ∀ c v, .isp c v ∈ es → v = .done) := by
  obtain ⟨r, t, hrun, hfmc, htrace, hr, hflash⟩ := eraseBlocks_spec 28 4 0 s rfl
  rw [and_iff_right rfl] at hr
  refine ⟨r, t, _, fun n hn => ?_, hrun, hfmc, htrace, ?_, fun a ha => ?_, ?_, hr.trans ?_⟩
  · have hblocks : 4 + 28 = 32 := rfl
    exact (eraseBlocks_fuel hblocks hn 0 s).trans hrun
  · rw [List.map_map, appBlocks, List.range'_eq_map_range, List.map_map]
    refine List.map_congr_left fun k hk => ?_
    have hk : k < 28 := List.mem_range.mp hk
    exact erasedBlock_blockCommand (by omega) _
  · rw [toNat_userAppStart, toNat_userAppEnd] at ha
    have hkeep : t.flash (a / 4) = s.flash (a / 4) := by
      rw [hflash, if_neg]
      rintro ⟨k, hk, hw, -⟩
      omega
    rw [Flash.byteAt, Flash.byteAt, hkeep]
  · intro addr a hmem ha
    obtain ⟨k, hk, hevent⟩ := List.mem_map.mp hmem
    have hk : k < 28 := List.mem_range.mp hk
    obtain ⟨hcommand, hdone⟩ := Event.isp.inj hevent
    obtain rfl : .ofNat (16384 * (4 + k)) = addr := IspCommand.blockErase.inj hcommand
    rw [toNat_blockStart (by omega)] at ha
    refine Flash.byteAt_of_erased ?_
    rw [hflash, if_pos ⟨k, hk, by omega, by rw [hdone]; rfl⟩]
  · constructor
    · intro hdone c v hmem
      obtain ⟨k, hk, hevent⟩ := List.mem_map.mp hmem
      rw [← (Event.isp.inj hevent).2]
      exact hdone k (List.mem_range.mp hk)
    · intro hall k hk
      exact hall _ _ (List.mem_map_of_mem (List.mem_range.mpr hk))

end Num487Boot
