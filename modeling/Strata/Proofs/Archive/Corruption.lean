/-
# `Strata.Proofs.Archive.Corruption` — damaged records are refused

The checksum that a record stores tells the bytes that it was made of from every text of the same
length that differs from them within four bytes side by side.  So if a reader extracts such a text
for the record, it is found out when the file is opened.
-/
import Strata.Proofs.Archive.Extraction
import Strata.Proofs.Checksum

namespace Strata.Archive

open Strata.Checksum

variable {p : String} {stored data : Bytes}

theorem verify_of_burst (h : Burst stored data) :
    verify p (some (crc32 stored)) data
      = .error (.backend s!"CRC error (archive corrupted?): {p}") := by
  rw [verify]
  exact if_neg (Ne.symm h.crc32_ne)

/-- A burst changes the checksum.  So a file whose record has bytes and stores the checksum of
`stored` is not opened, whatever else is in the archive, if the reader extracts for it what a burst
has made of `stored`. -/
theorem burst_detected (h : Burst stored data) :
    crc32 stored ≠ crc32 data ∧
    ∀ {name : String} {reader : Reader} {rs : List Record} {a : Archive} {i : Nat} {r : Record}
      {p : String}, reader.records = .ok rs → ofReader name reader = .ok a → rs[i]? = some r →
      r.GivesFile p → r.size ≠ 0 → r.crc = some (crc32 stored) → reader.extract i = .ok data →
      a.openBuffer p .reading = .error (.backend s!"CRC error (archive corrupted?): {p}") := by
  refine ⟨h.crc32_ne, ?_⟩
  intro name reader rs a i r p hr ha hi hf hsize hcrc hextract
  have hnode : (Node.ofRecord i r).crc = some (crc32 stored) := by
    rw [Node.ofRecord, if_neg hsize, hcrc]
  rw [openBuffer_of_givesFile hr ha hi hf, hextract, hnode]
  show (verify p (some (crc32 stored)) data).bind _ = _
  rw [verify_of_burst h]
  rfl

/-- Two bytes of six are exchanged in the second of two records. -/
theorem burst_detected_exchanged :
    let stored : Bytes := [1, 2, 3, 4, 5, 6]
    let data : Bytes := [1, 3, 2, 4, 5, 6]
    let readme : Record := .file "readme" [7]
    let file : Record := .file "docs/a" stored
    let reader : Reader := ⟨.ok [readme, file], fun i => .ok (if i = 0 then [7] else data)⟩
    Burst stored data ∧ ∃ a, ofReader "archive" reader = .ok a ∧ file.GivesFile "docs/a" ∧
      crc32 stored ≠ crc32 data ∧
      a.openBuffer "docs/a" .reading
        = .error (.backend "CRC error (archive corrupted?): docs/a") := by
  intro stored data readme file reader
  have hburst : Burst stored data := by
    refine ⟨rfl, by decide, 1, fun i hi => ?_⟩
    rcases hi with hi | hi
    · obtain rfl : i = 0 := by omega
      rfl
    · obtain ⟨j, rfl⟩ := Nat.exists_eq_add_of_le hi
      rw [show 1 + 4 + j = j + 1 + 1 + 1 + 1 + 1 by omega]
      rfl
  have hix : Index.ofRecords "archive" [readme, file] = .ok ⟨[("readme", .ofRecord 0 readme),
      ("docs", .implied), ("docs/a", .ofRecord 1 file)]⟩ := by
    decide +kernel
  have hr : reader.records = .ok [readme, file] := rfl
  have ha := (ofReader_eq_ok hr).mpr hix
  have hf : file.GivesFile "docs/a" := by decide +kernel
  obtain ⟨hsum, hopen⟩ := burst_detected hburst
  exact ⟨hburst, _, ha, hf, hsum, hopen hr ha (i := 1) rfl hf (by decide) rfl rfl⟩

end Strata.Archive
