import Num487Boot.BootReplay

/-!
# What boot_from_fs Leaves Behind

`boot_from_fs` turns the LED on, mounts LittleFS and opens `/boot`, and undoes all of it after
its last record only. Each of its early returns leaves what was acquired so far: the LED after
a failing erase, and the mounted file system with the open handle as well after a failing
record.

## Main results

* `releases_iff`: when every return releases everything.
* `releases_iff_of_documented`: the same for a LittleFS that behaves as documented.
-/

namespace Num487Boot

open Exec Memory

variable {s : Machine}

/-- Every return of `boot_from_fs` has released what was acquired. -/
def Releases (s : Machine) : Prop := ∀ r t, bootFromFs s = .ok r t → Released t

/-- A return with the LED on releases too little. -/
theorem not_releases_of_ledOn {t : Machine} {r : UInt8} (hrun : bootFromFs s = .ok r t)
    (hled : t.bootLEDOn = true) : ¬ Releases s := by
  intro h
  rw [(h r t hrun).ledOff] at hled
  cases hled

/-- What is released on every exit was erased without a failure. -/
theorem carried_erase_of_releases (h : Releases s) : Carried s.verdicts.isp eraseCommands := by
  by_contra hnot
  obtain ⟨t, hrun, hfmc, -⟩ := bootFromFs_eraseFails hnot
  exact not_releases_of_ledOn hrun hfmc.bootLEDOn h

/-- Where the record loop is reached, it was also programmed without one. -/
theorem carried_of_releases (h : Releases s) (hopens : s.volume.Opens) (hfits : s.volume.Fits) :
    Carried s.verdicts.isp (eraseCommands ++ s.bootCommands) := by
  by_contra hnot
  obtain ⟨t, hrun, hled, -⟩ :=
    (bootFromFs_ends (carried_erase_of_releases h) hopens hfits).2 hnot
  exact not_releases_of_ledOn hrun hled h

/-- Without a failure of the hardware everything is released, if `boot_from_fs` returns at
all. -/
theorem releases_of_carried (herase : Carried s.verdicts.isp eraseCommands)
    (hrecords : s.volume.Opens → s.volume.Fits →
      Carried s.verdicts.isp (eraseCommands ++ s.bootCommands)) : Releases s := by
  intro r t hrun
  rcases bootFromFs_cases s with ⟨-, u, hrun', -, hreleased⟩ | ⟨hwhy, -⟩ | ⟨-, -, e, u, hrun'⟩
  · rw [hrun] at hrun'
    cases hrun'
    exact hreleased
  · obtain ⟨hopens, hfits, hnot⟩ := hwhy herase
    exact absurd (hrecords hopens hfits) hnot
  · rw [hrun] at hrun'
    cases hrun'

/-- **Release on every exit**, for every state of the machine, every behaviour of LittleFS and
every pattern of failures of the hardware: it holds if and only if no erase fails and, where
the record loop is reached and its reads fit the buffer, no word of a record does. -/
theorem releases_iff (s : Machine) :
    Releases s ↔ Carried s.verdicts.isp eraseCommands ∧
      (s.volume.Opens → s.volume.Fits →
        Carried s.verdicts.isp (eraseCommands ++ s.bootCommands)) := by
  constructor
  · intro h
    exact ⟨carried_erase_of_releases h, carried_of_releases h⟩
  · rintro ⟨herase, hrecords⟩
    exact releases_of_carried herase hrecords

/-- With LittleFS as documented: no erase and no word of a record of `/boot` fails. -/
theorem releases_iff_of_documented (h : s.volume.Documented) :
    Releases s ↔ Carried s.verdicts.isp
      (eraseCommands ++ (fileRecords s.lfs.disk.bootContent).flatMap recordCommands) := by
  obtain ⟨hopens, hfits, himages⟩ := bootImages_of_documented h
  rw [← himages]
  constructor
  · intro hreleases
    exact carried_of_releases hreleases hopens hfits
  · intro hcarried
    exact releases_of_carried (carried_append.mp hcarried).1 fun _ _ => hcarried

/-- A file of one record. -/
def oneRecord : FileData :=
  ⟨firstPage.bytes, by
    rw [firstPage.size]
    decide⟩

/-- A machine on which the erase succeeds and every `FMC_Write` fails. -/
def failingWrite : Machine :=
  { Machine.connected [] (.formatted (some oneRecord)) .blank with
    verdicts := {
      isp := fun _ c =>
        match c with
        | .program _ _ => .fault
        | .read _ | .blockErase _ => .done
      lfs := fun _ _ => .asDocumented } }

/-- The first word of the record fails, and nothing is released. -/
theorem failingWrite_leaks : ¬ Releases failingWrite := by
  have hdoc : failingWrite.volume.Documented := fun _ _ => rfl
  have hcontent : failingWrite.lfs.disk.bootContent = firstPage.bytes := rfl
  have hlen : bufferSize ≤ failingWrite.lfs.disk.bootContent.length := by
    rw [hcontent, firstPage.size]
  intro h
  rw [releases_iff_of_documented hdoc, carried_append, fileRecords_of_le hlen,
    List.flatMap_cons, recordCommands, pageCommands, List.cons_append] at h
  cases h.2.1

end Num487Boot
