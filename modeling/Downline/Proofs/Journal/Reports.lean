import Downline.Journal.Report
import Downline.Proofs.Json.Decoding
import Downline.Proofs.Timestamp
import Downline.Proofs.Uuid

/-! What is written of a run report is enough to have it back, on one line or on many. So no two runs have
one canonical text, and a report that was changed under its hash verifies only where hashes collide. -/

namespace Downline

open Json (Fields)

/-! ### What a run did -/

/-- The counts are such as words of 64 bits hold. -/
structure PropagationReport.InRange (r : PropagationReport) : Prop where
  emptyNodes : r.emptyNodes < UInt64.size
  terminators : r.terminators < UInt64.size
  batches : r.batches < UInt64.size
  failedBatches : ∀ n ∈ r.failedBatches, n < UInt64.size
  nodesWritten : r.nodesWritten < UInt64.size
  unreachable : r.unreachable < UInt64.size

/-- The counts are such as words of 64 bits hold, and of 32 for the passes. -/
structure RekeyReport.InRange (r : RekeyReport) : Prop where
  passes : r.passes < UInt32.size
  candidates : r.candidates < UInt64.size
  rekeyed : r.rekeyed < UInt64.size
  skipped : r.skipped < UInt64.size
  failed : r.failed < UInt64.size
  nodesWritten : r.nodesWritten < UInt64.size
  peakInFlight : r.peakInFlight < UInt64.size

namespace PropagationReport

variable {r : PropagationReport}

theorem ofJson?_members (h : r.InRange) : ofJson? (.obj r.members) = some r := by
  have hfailed : Json.asList? Json.asCount? (.array (r.failedBatches.map Json.nat)) =
      some r.failedBatches :=
    Json.asList?_map fun n hn => Json.asCount?_nat (h.failedBatches n hn)
  have hfields : (Json.obj r.members).fields? ["empty_nodes", "terminators", "batches",
      "failed_batches", "nodes_written", "unreachable"] = some { found := r.members } :=
    Json.fields?_obj (by simp [members]) (by simp [members])
  rw [ofJson?, hfields]
  simp [Fields.required, Fields.get?, members, hfailed, Json.asCount?_nat h.emptyNodes,
    Json.asCount?_nat h.terminators, Json.asCount?_nat h.batches, Json.asCount?_nat h.nodesWritten,
    Json.asCount?_nat h.unreachable]

theorem plain_of_mem_members : ∀ m ∈ r.members, m.2.Plain := by
  have hfailed : (Json.array (r.failedBatches.map Json.nat)).Plain := by
    apply Json.plain_array
    intro j hj
    obtain ⟨n, -, rfl⟩ := List.mem_map.mp hj
    exact Json.plain_nat n
  simp [members, Json.plain_nat, hfailed]

theorem isKeepable_of_mem_members (h : r.InRange) {levels : Nat} :
    ∀ m ∈ r.members, m.2.isKeepable (levels + 1) = true := by
  have hfailed : (Json.array (r.failedBatches.map Json.nat)).isKeepable (levels + 1) = true := by
    apply Json.isKeepable_array
    intro j hj
    obtain ⟨n, hn, rfl⟩ := List.mem_map.mp hj
    exact Json.isKeepable_nat (h.failedBatches n hn)
  simp [members, hfailed, Json.isKeepable_nat h.emptyNodes, Json.isKeepable_nat h.terminators,
    Json.isKeepable_nat h.batches, Json.isKeepable_nat h.nodesWritten,
    Json.isKeepable_nat h.unreachable]

end PropagationReport

namespace RekeyReport

variable {r : RekeyReport}

theorem ofJson?_members (h : r.InRange) : ofJson? (.obj r.members) = some r := by
  have hfields : (Json.obj r.members).fields? ["passes", "candidates", "rekeyed", "skipped",
      "failed", "nodes_written", "peak_in_flight"] = some { found := r.members } :=
    Json.fields?_obj (by simp [members]) (by simp [members])
  rw [ofJson?, hfields]
  simp [Fields.required, Fields.get?, members, Json.asNat?_nat h.passes,
    Json.asCount?_nat h.candidates, Json.asCount?_nat h.rekeyed, Json.asCount?_nat h.skipped,
    Json.asCount?_nat h.failed, Json.asCount?_nat h.nodesWritten, Json.asCount?_nat h.peakInFlight]

theorem plain_of_mem_members : ∀ m ∈ r.members, m.2.Plain := by
  simp [members, Json.plain_nat]

theorem isKeepable_of_mem_members (h : r.InRange) {levels : Nat} :
    ∀ m ∈ r.members, m.2.isKeepable levels = true := by
  have hpasses : r.passes < UInt64.size := Nat.lt_trans h.passes (by decide)
  simp [members, Json.isKeepable_nat hpasses, Json.isKeepable_nat h.candidates,
    Json.isKeepable_nat h.rekeyed, Json.isKeepable_nat h.skipped, Json.isKeepable_nat h.failed,
    Json.isKeepable_nat h.nodesWritten, Json.isKeepable_nat h.peakInFlight]

end RekeyReport

namespace JobOutcome

variable {o : JobOutcome} {levels : Nat}

/-- The members that are the report's own. -/
def reportMembers : JobOutcome → List (String × Json)
  | propagation r => r.members
  | rekey r => r.members

def InRange : JobOutcome → Prop
  | propagation r => r.InRange
  | rekey r => r.InRange

theorem toJson_eq (o : JobOutcome) :
    o.toJson = .obj (("job", .text o.jobName) :: o.reportMembers) := by
  cases o <;> rfl

theorem ne_job_of_mem_reportMembers : ∀ m ∈ o.reportMembers, m.1 ≠ "job" := by
  cases o with
  | propagation r => simp [reportMembers, PropagationReport.members]
  | rekey r => simp [reportMembers, RekeyReport.members]

/-- The report behind the name of its job is read as a report of that job. -/
theorem ofTagged?_reportMembers (h : o.InRange) :
    ofTagged? (.text o.jobName) (.obj o.reportMembers) = some o := by
  cases o with
  | propagation r =>
    have hread : PropagationReport.ofJson? (.obj r.members) = some r :=
      PropagationReport.ofJson?_members h
    simp [ofTagged?, jobName, reportMembers, Json.text, Json.asText?, hread]
  | rekey r =>
    have hread : RekeyReport.ofJson? (.obj r.members) = some r := RekeyReport.ofJson?_members h
    simp [ofTagged?, jobName, reportMembers, Json.text, Json.asText?, hread]

theorem isKeepable_toJson (h : o.InRange) : o.toJson.isKeepable (levels + 2) = true := by
  rw [toJson_eq]
  apply Json.isKeepable_obj
  intro m hm
  rcases List.mem_cons.mp hm with rfl | hm
  · rfl
  · cases o with
    | propagation r => exact PropagationReport.isKeepable_of_mem_members h m hm
    | rekey r => exact RekeyReport.isKeepable_of_mem_members h m hm

theorem plain_toJson : o.toJson.Plain := by
  rw [toJson_eq]
  apply Json.plain_obj
  intro m hm
  rcases List.mem_cons.mp hm with rfl | hm
  · exact Json.plain_text _
  · cases o with
    | propagation r => exact PropagationReport.plain_of_mem_members m hm
    | rekey r => exact RekeyReport.plain_of_mem_members m hm

theorem ofJson?_toJson (h : o.InRange) : ofJson? (levels + 2) o.toJson = some o := by
  obtain ⟨hnone, hall⟩ := Json.filter_members_ne (ne_job_of_mem_reportMembers (o := o))
  have hkeep : o.toJson.isKeepable (levels + 2) = true := isKeepable_toJson h
  rw [toJson_eq, Json.obj, List.map_cons] at hkeep ⊢
  rw [ofJson?, hkeep, Bool.not_true, if_neg Bool.false_ne_true]
  rw [List.filter_cons_of_pos (by simp), List.filter_cons_of_neg (by simp), hnone, hall]
  exact ofTagged?_reportMembers h

end JobOutcome

/-! ### Run reports -/

/-- Two texts with one hash. -/
def Blake3.Collide (a b : String) : Prop := a ≠ b ∧ hashHex a = hashHex b

theorem Blake3.hashHex_eq_iff {a b : String} : hashHex a = hashHex b ↔ a = b ∨ Collide a b := by
  constructor
  · intro h
    by_cases heq : a = b
    · exact .inl heq
    · exact .inr ⟨heq, h⟩
  · rintro (rfl | ⟨-, h⟩)
    · rfl
    · exact h

namespace RunReport

variable {r s : RunReport}

/-- What a report can hold at all: times of the calendar, and counts that fit their words. -/
structure InRange (r : RunReport) : Prop where
  startedAt : r.startedAt.isValid = true
  finishedAt : r.finishedAt.isValid = true
  outcome : r.outcome.InRange

/-- Two reports that tell the same of a run, whatever their hashes. -/
def SameRun (r s : RunReport) : Prop :=
  r.id = s.id ∧ r.startedAt = s.startedAt ∧ r.finishedAt = s.finishedAt ∧ r.outcome = s.outcome

instance (r s : RunReport) : Decidable (r.SameRun s) :=
  inferInstanceAs (Decidable (_ ∧ _))

theorem sameRun_iff : r.SameRun s ↔ { r with contentHash := s.contentHash } = s := by
  cases r
  cases s
  simp [SameRun]

theorem plain_content : (Json.obj r.content).Plain := by
  apply Json.plain_obj
  simp [content, Json.plain_text, JobOutcome.plain_toJson]

theorem plain_toJson : r.toJson.Plain := by
  apply Json.plain_obj
  simp [content, Json.plain_text, JobOutcome.plain_toJson]

theorem ofJson?_toJson (h : r.InRange) : ofJson? r.toJson = some r := by
  have houtcome : JobOutcome.ofJson? (Json.maxLevels - 1) r.outcome.toJson = some r.outcome :=
    JobOutcome.ofJson?_toJson h.outcome
  have hfields : r.toJson.fields? ["id", "started_at", "finished_at", "outcome", "content_hash"] =
      some { found := r.content ++ [("content_hash", .text r.contentHash)] } :=
    Json.fields?_obj (by simp [content]) (by simp [content])
  rw [ofJson?, hfields]
  simp [Fields.required, Fields.get?, content, Json.text, Json.asText?, houtcome,
    Uuid.ofString?_text, Timestamp.ofString?_text h.startedAt,
    Timestamp.ofString?_text h.finishedAt]

theorem ofString?_compact (h : r.InRange) : ofString? r.toJson.compact = some r := by
  rw [ofString?, Json.ofString?_compact plain_toJson, Option.bind_eq_bind, Option.bind_some,
    ofJson?_toJson h]

theorem ofString?_pretty (h : r.InRange) : ofString? r.toJson.pretty = some r := by
  rw [ofString?, Json.ofString?_pretty plain_toJson, Option.bind_eq_bind, Option.bind_some,
    ofJson?_toJson h]

/-- The text that is hashed leaves nothing of a run out. -/
theorem canonicalText_eq_iff (hr : r.InRange) (hs : s.InRange) :
    r.canonicalText = s.canonicalText ↔ r.SameRun s := by
  constructor
  · intro htext
    -- The text gives back its document, and a document under any hash the report that it was made of.
    have hdocument : Json.obj r.content = Json.obj s.content := by
      have hread := Json.ofString?_compact (plain_content (r := r))
      rw [show (Json.obj r.content).compact = (Json.obj s.content).compact from htext,
        Json.ofString?_compact plain_content] at hread
      exact (Option.some.inj hread).symm
    have hcontent : r.content = s.content := Json.obj_injective hdocument
    have hrehashed : ({ r with contentHash := s.contentHash } : RunReport).toJson = s.toJson :=
      congrArg (fun members => Json.obj (members ++ [("content_hash", Json.text s.contentHash)]))
        hcontent
    have hread : ofJson? ({ r with contentHash := s.contentHash } : RunReport).toJson =
        some { r with contentHash := s.contentHash } :=
      ofJson?_toJson ⟨hr.startedAt, hr.finishedAt, hr.outcome⟩
    rw [hrehashed, ofJson?_toJson hs] at hread
    exact sameRun_iff.mpr (Option.some.inj hread).symm
  · rintro ⟨hid, hstarted, hfinished, houtcome⟩
    simp only [canonicalText, content, hid, hstarted, hfinished, houtcome]

theorem verifies_iff : r.verifies = true ↔ Blake3.hashHex r.canonicalText = r.contentHash := beq_iff_eq

theorem verifies_sealed (r : RunReport) : r.sealed.verifies = true := verifies_iff.mpr rfl

/-- A report is read back from either of its texts, and the text that is hashed is that of no other run. So
a report under the hash of one that verifies does so itself exactly if it tells the same of the same run,
unless the two texts that are hashed collide. -/
theorem encoding_tells_runs_apart (hr : r.InRange) (hs : s.InRange) :
    (ofString? r.toJson.compact = some r ∧ ofString? r.toJson.pretty = some r) ∧
      (r.canonicalText = s.canonicalText ↔ r.SameRun s) ∧
      (r.verifies = true → s.contentHash = r.contentHash →
        (s.verifies = true ↔ r.SameRun s ∨ Blake3.Collide r.canonicalText s.canonicalText)) := by
  refine ⟨⟨ofString?_compact hr, ofString?_pretty hr⟩, canonicalText_eq_iff hr hs, ?_⟩
  intro hverified hkept
  have hhash : Blake3.hashHex r.canonicalText = s.contentHash := by
    rw [hkept, ← verifies_iff]
    exact hverified
  have hverifies : s.verifies = true ↔
      Blake3.hashHex r.canonicalText = Blake3.hashHex s.canonicalText := by
    rw [verifies_iff, ← hhash, eq_comm]
  rw [hverifies, ← canonicalText_eq_iff hr hs]
  exact Blake3.hashHex_eq_iff

/-- A pass that re-keyed two people. -/
def smallRun : RunReport := sealed {
  id := Uuid.ofNat 10
  startedAt := { year := 2026, month := 10, day := 19, hour := 8, minute := 0, second := 0, nanos := 0 }
  finishedAt := { year := 2026, month := 10, day := 19, hour := 8, minute := 0, second := 1, nanos := 0 }
  outcome := .rekey { passes := 1, candidates := 2, rekeyed := 2, nodesWritten := 2, peakInFlight := 2 }
  contentHash := "" }

theorem inRange_smallRun : smallRun.InRange :=
  ⟨by decide, by decide, by constructor <;> decide⟩

theorem verifies_smallRun : smallRun.verifies = true := verifies_sealed _

/-- The same run made out to have written more, under the same hash. -/
def inflatedRun : RunReport :=
  { smallRun with
    outcome := .rekey {
      passes := 1, candidates := 2, rekeyed := 2, nodesWritten := 999, peakInFlight := 2 } }

theorem inflated_run_told_apart :
    (smallRun.InRange ∧ inflatedRun.InRange) ∧
      (smallRun.verifies = true ∧ inflatedRun.contentHash = smallRun.contentHash) ∧
      ofString? smallRun.toJson.compact = some smallRun ∧
      ofString? smallRun.toJson.pretty = some smallRun ∧
      smallRun.canonicalText ≠ inflatedRun.canonicalText ∧
      (inflatedRun.verifies = true ↔
        Blake3.Collide smallRun.canonicalText inflatedRun.canonicalText) := by
  have hinflated : inflatedRun.InRange := ⟨by decide, by decide, by constructor <;> decide⟩
  have hother : ¬ smallRun.SameRun inflatedRun := by decide
  obtain ⟨⟨hcompact, hpretty⟩, htext, hverifies⟩ :=
    encoding_tells_runs_apart inRange_smallRun hinflated
  have hcollide := hverifies verifies_smallRun rfl
  rw [or_iff_right hother] at hcollide
  exact ⟨⟨inRange_smallRun, hinflated⟩, ⟨verifies_smallRun, rfl⟩, hcompact, hpretty,
    fun h => hother (htext.mp h), hcollide⟩

end RunReport

end Downline
