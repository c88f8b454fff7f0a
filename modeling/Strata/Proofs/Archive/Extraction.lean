/-
# `Strata.Proofs.Archive.Extraction` — the bytes that an archive hands out

The checksum of a record passes through the index before it is compared.  On its way
neither a later record nor an implied directory takes the place of a file, so the node
of a file carries the checksum of its own record, unless the record has no bytes to
verify.
-/
import Strata.Proofs.Archive.Consistency

namespace Strata.Archive

open Strata.Path Strata.Archive.Index

variable {a : Archive} {name p : String} {reader : Reader} {rs : List Record} {r : Record} {i : Nat}
  {crc : UInt32} {data : Bytes}

theorem verify_eq_ok {stored : Option UInt32} {bytes : Bytes} :
    verify p stored data = .ok bytes ↔ bytes = data ∧ ∀ c ∈ stored, Checksum.crc32 data = c := by
  cases stored with
  | none =>
      rw [verify]
      exact ⟨fun h => ⟨(Except.ok.inj h).symm, by simp⟩, fun h => by rw [h.1]⟩
  | some c =>
      rw [verify]
      by_cases hc : Checksum.crc32 data = c
      · rw [if_pos hc]
        exact ⟨fun h => ⟨(Except.ok.inj h).symm, by simpa using hc⟩, fun h => by rw [h.1]⟩
      · rw [if_neg hc]
        exact ⟨fun h => (by cases h), fun h => absurd (h.2 c rfl) hc⟩

/-- A file is opened on what the reader extracts for its record, once this is verified. -/
theorem openBuffer_of_givesFile (hr : reader.records = .ok rs) (h : ofReader name reader = .ok a)
    (hi : rs[i]? = some r) (hf : r.GivesFile p) :
    a.openBuffer p .reading =
      (reader.extract i).bind fun data =>
        (verify p (Node.ofRecord i r).crc data).bind fun bytes => .ok (.reader bytes) := by
  obtain ⟨hfind, hk⟩ := ((built_ofReader hr h).file p _).mpr ⟨i, r, hi, hf, rfl⟩
  have hextract : a.extract = reader.extract := by
    have hix := index_of_ofReader hr h
    rw [(ofReader_eq_ok hr).mpr hix] at h
    rw [← Except.ok.inj h]
  have hfile : (Node.ofRecord i r).kind.isFile = true := by
    rw [hk]
    rfl
  rw [openBuffer, hfind, ← hextract]
  simp only [hfile, if_true]
  rfl

/-- Whoever opens a file whose record has bytes and stores a checksum is given the bytes that the
reader extracts, if they have this checksum; otherwise opening fails. -/
theorem openBuffer_verified (hr : reader.records = .ok rs) (h : ofReader name reader = .ok a)
    (hi : rs[i]? = some r) (hf : r.GivesFile p) (hcrc : r.crc = some crc) (hsize : r.size ≠ 0) :
    (a.openBuffer p .reading = (reader.extract i).bind fun data =>
      if Checksum.crc32 data = crc then .ok (.reader data)
      else .error (.backend s!"CRC error (archive corrupted?): {p}")) ∧
    ∀ b, a.openBuffer p .reading = .ok b → Checksum.crc32 b.readAll.1 = crc := by
  have hstored : (Node.ofRecord i r).crc = some crc := by
    rw [Node.ofRecord, if_neg hsize, hcrc]
  have hopen := openBuffer_of_givesFile hr h hi hf
  rw [hstored] at hopen
  constructor
  · rw [hopen]
    refine congrArg _ (funext fun data => ?_)
    rw [verify]
    split <;> rfl
  · intro b hb
    rw [hopen] at hb
    obtain ⟨data, -, hverify⟩ := bind_eq_ok.mp hb
    obtain ⟨bytes, hbytes, hreader⟩ := bind_eq_ok.mp hverify
    obtain ⟨rfl, hsum⟩ := verify_eq_ok.mp hbytes
    rw [← Except.ok.inj hreader]
    exact hsum crc rfl

/-- One byte with its checksum. -/
theorem openBuffer_verified_byte :
    let file : Record := ⟨"a", .file, 1, some 0x8CDC1683, none⟩
    let reader : Reader := ⟨.ok [file], fun _ => .ok [120]⟩
    ∃ a, ofReader "archive" reader = .ok a ∧ a.openBuffer "a" .reading = .ok (.reader [120]) := by
  intro file reader
  have hix : Index.ofRecords "archive" [file] = .ok ⟨[("a", .ofRecord 0 file)]⟩ := by
    decide +kernel
  have hr : reader.records = .ok [file] := rfl
  have ha := (ofReader_eq_ok hr).mpr hix
  have hf : file.GivesFile "a" := by decide +kernel
  have hverified := openBuffer_verified hr ha (i := 0) rfl hf rfl (by decide)
  refine ⟨_, ha, hverified.1.trans ?_⟩
  decide +kernel

/-- A record of no bytes is not verified: the reader extracts a byte for it, which is handed out
though the checksum that the record stores is another one. -/
theorem empty_record_not_verified :
    let file : Record := ⟨"a", .file, 0, some 5, none⟩
    let reader : Reader := ⟨.ok [file], fun _ => .ok [120]⟩
    ∃ a, ofReader "archive" reader = .ok a ∧ file.GivesFile "a" ∧
      a.openBuffer "a" .reading = .ok (.reader [120]) ∧ Checksum.crc32 [120] ≠ 5 := by
  intro file reader
  have hix : Index.ofRecords "archive" [file] = .ok ⟨[("a", .ofRecord 0 file)]⟩ := by
    decide +kernel
  have hr : reader.records = .ok [file] := rfl
  refine ⟨_, (ofReader_eq_ok hr).mpr hix, ?_⟩
  decide +kernel

end Strata.Archive
