import Downline.Journal
import Mathlib.Tactic.Common

/-! When the journal keeps every record. Run reports lie four levels below its root and directories no
further down than three, so on files that the journal alone has made no save fails. -/

namespace Downline

/-- Whatever runs are recorded one after another, none of the records fails. -/
def Recordable (journal : Option Journal) (files : FileTree) : Prop :=
  ∀ runs : List (Stamp × JobOutcome), ∃ files',
    runs.foldlM (fun files run => (record journal run.1 run.2 files).map (·.2)) files =
      Except.ok files'

variable {journal : Option Journal} {files : FileTree}

theorem outcome_of_record {stamp : Stamp} {outcome : JobOutcome} {report : RunReport}
    {files' : FileTree} (h : record journal stamp outcome files = .ok (report, files')) :
    report.outcome = outcome := by
  cases journal with
  | none =>
    cases h
    rfl
  | some j =>
    simp only [record] at h
    cases hs : j.save (RunReport.seal stamp outcome) files with
    | error e => rw [hs] at h; cases h
    | ok saved =>
      rw [hs] at h
      cases h
      rfl

/-- A recordable run is on record, and so can be the runs after it. -/
theorem Recordable.exists_record (h : Recordable journal files) (stamp : Stamp)
    (outcome : JobOutcome) : ∃ report files', record journal stamp outcome files = .ok (report, files') ∧
      Recordable journal files' := by
  obtain ⟨files₁, h₁⟩ := h [(stamp, outcome)]
  cases hr : record journal stamp outcome files with
  | error e =>
    rw [List.foldlM_cons, hr] at h₁
    cases h₁
  | ok kept =>
    refine ⟨kept.1, kept.2, rfl, fun runs => ?_⟩
    obtain ⟨files', h'⟩ := h ((stamp, outcome) :: runs)
    rw [List.foldlM_cons, hr] at h'
    exact ⟨files', h'⟩

/-- Without a journal there is nothing to fail. -/
theorem recordable_none (files : FileTree) : Recordable none files := by
  intro runs
  refine ⟨files, ?_⟩
  induction runs with
  | nil => rfl
  | cons run rest ih => exact ih

/-! ### Files of the journal's own -/

namespace FileTree

/-- All files lie `n + 1` levels deep, and no directory lies deeper than `n`. -/
structure Layered (n : Nat) (files : FileTree) : Prop where
  depth_file : ∀ f ∈ files.files, f.1.length = n + 1
  depth_directory : ∀ d ∈ files.directories, d.length ≤ n

variable {n : Nat} {path : FilePath}

theorem Layered.isFile (h : Layered n files) (hp : path.length ≤ n) : files.isFile path = false := by
  have hnone : (files.files.find? fun f => f.1 == path) = none := by
    rw [List.find?_eq_none]
    intro f hf he
    have := h.depth_file f hf
    rw [beq_iff_eq.mp he] at this
    omega
  rw [FileTree.isFile, read?, hnone]
  rfl

/-- Directories that are not too deep can be made, and then they stand. -/
theorem Layered.makeDirectory (h : Layered n files) (hp : path.length ≤ n) :
    ∃ files', files.makeDirectory path = .ok files' ∧ Layered n files' ∧
      files'.isDirectory path = true := by
  rw [FileTree.makeDirectory, h.isFile hp]
  by_cases hd : files.isDirectory path = true
  · exact ⟨files, by simp [hd], h, hd⟩
  · refine ⟨{ files with directories := files.directories ++ [path] }, by simp [hd],
      ⟨h.depth_file, fun d hd' => ?_⟩, ?_⟩
    · rcases List.mem_append.mp hd' with hd' | hd'
      · exact h.depth_directory d hd'
      · rw [List.mem_singleton.mp hd']
        exact hp
    · simp [FileTree.isDirectory]

theorem Layered.foldlM_makeDirectory (paths : List FilePath) (last : FilePath)
    (h : Layered n files) (hp : ∀ p ∈ paths ++ [last], p.length ≤ n) :
    ∃ files', (paths ++ [last]).foldlM FileTree.makeDirectory files = Except.ok files' ∧
      Layered n files' ∧ files'.isDirectory last = true := by
  induction paths generalizing files with
  | nil =>
    obtain ⟨files', hmake, hl, hd⟩ := h.makeDirectory (hp last (by simp))
    exact ⟨files', by simp [hmake], hl, hd⟩
  | cons p rest ih =>
    obtain ⟨files₁, hmake, hl, -⟩ := h.makeDirectory (hp p (by simp))
    obtain ⟨files', hrest, hl', hd⟩ := ih hl fun q hq => hp q (List.mem_cons_of_mem p hq)
    exact ⟨files', by rw [List.cons_append, List.foldlM_cons, hmake]; exact hrest, hl', hd⟩

theorem Layered.makeDirectories (h : Layered n files) (hp : path.length = n) (hn : 0 < n) :
    ∃ files', files.makeDirectories path = .ok files' ∧ Layered n files' ∧
      files'.isDirectory path = true := by
  obtain ⟨m, rfl⟩ : ∃ m, n = m + 1 := ⟨n - 1, by omega⟩
  have hlast : ancestry path = (List.range m).map (fun i => path.take (i + 1)) ++ [path] := by
    rw [ancestry, hp, List.range_succ, List.map_append, List.map_singleton, ← hp,
      List.take_length]
  rw [FileTree.makeDirectories, hlast]
  refine h.foldlM_makeDirectory _ _ fun p hpm => ?_
  rcases List.mem_append.mp hpm with hpm | hpm
  · obtain ⟨i, -, rfl⟩ := List.mem_map.mp hpm
    rw [List.length_take, hp]
    exact Nat.min_le_right _ _
  · rw [List.mem_singleton.mp hpm]
    exact Nat.le_of_eq hp

/-- A file can be written where its directory stands. -/
theorem Layered.write (h : Layered n files) (text : String) (hp : path.length = n + 1)
    (hd : files.isDirectory path.dropLast = true) :
    ∃ files', files.write path text = .ok files' ∧ Layered n files' := by
  have hnot : files.isDirectory path = false := by
    rw [FileTree.isDirectory, Bool.or_eq_false_iff]
    constructor
    · exact beq_eq_false_iff_ne.mpr fun he => by rw [he] at hp; cases hp
    · by_contra hc
      have := h.depth_directory path (by simpa using hc)
      omega
  refine ⟨files.put path text, by rw [FileTree.write, hnot, hd]; rfl, ?_⟩
  unfold put
  split
  · refine ⟨fun f hf => ?_, h.depth_directory⟩
    obtain ⟨g, hg, rfl⟩ := List.mem_map.mp hf
    split
    · exact hp
    · exact h.depth_file g hg
  · refine ⟨fun f hf => ?_, h.depth_directory⟩
    rcases List.mem_append.mp hf with hf | hf
    · exact h.depth_file f hf
    · rw [List.mem_singleton.mp hf]
      exact hp

end FileTree

theorem Journal.length_pathOf (j : Journal) (r : RunReport) :
    (j.pathOf r).length = j.root.length + 3 + 1 := by
  simp [Journal.pathOf, Timestamp.datePath]

/-- On the files of its own saves no save fails. -/
theorem Journal.exists_save (j : Journal) (h : FileTree.Layered (j.root.length + 3) files)
    (r : RunReport) : ∃ kept, j.save r files = .ok kept ∧
      FileTree.Layered (j.root.length + 3) kept.2 := by
  have hlength : (j.pathOf r).dropLast.length = j.root.length + 3 := by
    rw [List.length_dropLast, j.length_pathOf]
    rfl
  obtain ⟨made, hmake, hmade, hdirectory⟩ := h.makeDirectories hlength (Nat.succ_pos _)
  obtain ⟨files', hwrite, hlayered⟩ := hmade.write r.toJson.pretty (j.length_pathOf r) hdirectory
  exact ⟨(j.pathOf r, files'), by simp only [Journal.save, hmake, hwrite], hlayered⟩

/-- On the files of its own saves a journal keeps every record. -/
theorem recordable_of_layered (j : Journal) (h : FileTree.Layered (j.root.length + 3) files) :
    Recordable (some j) files := by
  intro runs
  induction runs generalizing files with
  | nil => exact ⟨files, rfl⟩
  | cons run rest ih =>
    obtain ⟨kept, hsave, hlayered⟩ := j.exists_save h (RunReport.seal run.1 run.2)
    obtain ⟨files', hrest⟩ := ih hlayered
    refine ⟨files', ?_⟩
    have hrecord : (record (some j) run.1 run.2 files).map (·.2) = .ok kept.2 := by
      simp only [record, hsave]
      rfl
    rw [List.foldlM_cons, hrecord]
    exact hrest

end Downline
