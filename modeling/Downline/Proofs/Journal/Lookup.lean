import Downline.Proofs.Journal
import Downline.Proofs.Journal.Reports

/-! A report is looked up by the name of its file and given back if its hash is right. Nothing makes sure that
it is the report which that name belongs to. -/

namespace Downline

/-! ### Files by their names -/

namespace FileTree

variable {files : FileTree} {directory : FilePath} {name : String} {f : FilePath × String}

/-- Whether a file lies below a directory and has a name. -/
def fits (directory : FilePath) (name : String) (f : FilePath × String) : Bool :=
  directory.isPrefixOf f.1 && f.1.length != directory.length && f.1.getLast? == some name

theorem fits_iff : fits directory name f = true ↔
    directory <+: f.1 ∧ f.1.length ≠ directory.length ∧ f.1.getLast? = some name := by
  simp only [fits, Bool.and_eq_true, List.isPrefixOf_iff_prefix, bne_iff_ne, beq_iff_eq, and_assoc]

theorem find?_eq (files : FileTree) (directory : FilePath) (name : String) :
    files.find? directory name = files.files.find? (fits directory name) := rfl

theorem mem_of_find? (h : files.find? directory name = some f) :
    f ∈ files.files ∧ fits directory name f = true :=
  ⟨List.mem_of_find?_eq_some h, List.find?_some h⟩

theorem exists_find?_eq_some (hf : f ∈ files.files) (hfits : fits directory name f = true) :
    ∃ g, files.find? directory name = some g := by
  apply Option.isSome_iff_exists.mp
  rw [find?_eq, List.find?_isSome]
  exact ⟨f, hf, hfits⟩

end FileTree

/-! ### What a lookup gives -/

namespace Journal

variable {j : Journal} {files : FileTree} {id : Uuid} {r : RunReport}

theorem fileName_injective : Function.Injective fileName :=
  fun _ _ h => Uuid.text_injective (String.append_left_inj _ |>.mp h)

/-- A file below the root. -/
def IsBelow (j : Journal) (path : FilePath) : Prop :=
  j.root <+: path ∧ path.length ≠ j.root.length

theorem isBelow_pathOf : j.IsBelow (j.pathOf r) := by
  refine ⟨⟨r.startedAt.datePath ++ [fileName r.id], (List.append_assoc ..).symm⟩, ?_⟩
  rw [length_pathOf]
  omega

theorem getLast?_pathOf : (j.pathOf r).getLast? = some (fileName r.id) := List.getLast?_concat

theorem get_of_find? {path : FilePath} {text : String}
    (hfound : files.find? j.root (fileName id) = some (path, text))
    (hread : RunReport.ofString? text = some r) :
    j.get id files = if r.verifies then .ok r else .error (.journal (.tampered id.text)) := by
  simp only [get, hfound, hread]

theorem exists_find?_of_get (h : j.get id files = .ok r) : ∃ path text,
    files.find? j.root (fileName id) = some (path, text) ∧ RunReport.ofString? text = some r ∧
      r.verifies = true := by
  unfold get at h
  split at h
  · cases h
  next path text hfound =>
    split at h
    · cases h
    next read hread =>
      split_ifs at h with hverifies
      cases h
      exact ⟨path, text, hfound, hread, hverifies⟩

/-- A report that is given back verifies and was read from a file below the root that has the name of the
id asked for. It is the report asked for exactly if it lies under its own name. -/
theorem lookup_goes_by_file_name (h : j.get id files = .ok r) :
    r.verifies = true ∧ ∃ path text, (path, text) ∈ files.files ∧ j.IsBelow path ∧
      path.getLast? = some (fileName id) ∧ RunReport.ofString? text = some r ∧
      (r.id = id ↔ path.getLast? = some (fileName r.id)) := by
  obtain ⟨path, text, hfound, hread, hverifies⟩ := exists_find?_of_get h
  obtain ⟨hmem, hfits⟩ := FileTree.mem_of_find? hfound
  obtain ⟨hroot, hlength, hname⟩ := FileTree.fits_iff.mp hfits
  refine ⟨hverifies, path, text, hmem, ⟨hroot, hlength⟩, hname, hread, ?_⟩
  rw [hname, Option.some_inj, fileName_injective.eq_iff, eq_comm]

/-- A journal whose one file holds a report under the name of another. -/
def misfiled : FileTree :=
  { directories := [["runs"], ["runs", "2026"], ["runs", "2026", "10"], ["runs", "2026", "10", "19"]]
    files := [(["runs", "2026", "10", "19", fileName (Uuid.ofNat 11)],
      RunReport.smallRun.toJson.pretty)] }

theorem get_misfiled :
    get { root := ["runs"] } (Uuid.ofNat 11) misfiled = .ok RunReport.smallRun := by
  have hfound : misfiled.find? ["runs"] (fileName (Uuid.ofNat 11)) =
      some (["runs", "2026", "10", "19", fileName (Uuid.ofNat 11)],
        RunReport.smallRun.toJson.pretty) := by
    simp [FileTree.find?_eq, FileTree.fits, misfiled]
  rw [get_of_find? hfound (RunReport.ofString?_pretty RunReport.inRange_smallRun)]
  exact if_pos RunReport.verifies_smallRun

theorem misfiled_report_under_its_file :
    get { root := ["runs"] } (Uuid.ofNat 11) misfiled = .ok RunReport.smallRun ∧
      RunReport.smallRun.verifies = true ∧ ∃ path text, (path, text) ∈ misfiled.files ∧
        path.getLast? = some (fileName (Uuid.ofNat 11)) ∧
        path.getLast? ≠ some (fileName RunReport.smallRun.id) := by
  have hother : RunReport.smallRun.id ≠ Uuid.ofNat 11 := by decide
  obtain ⟨hverifies, path, text, hmem, -, hname, -, hiff⟩ := lookup_goes_by_file_name get_misfiled
  exact ⟨get_misfiled, hverifies, path, text, hmem, hname, fun h => hother (hiff.mpr h)⟩

theorem lookup_gives_misfiled_report : ¬ ∀ (j : Journal) (files : FileTree) (id : Uuid) (r : RunReport),
    j.get id files = .ok r → r.id = id ∧ r.verifies = true := by
  intro h
  have hid : RunReport.smallRun.id = Uuid.ofNat 11 := (h _ _ _ _ get_misfiled).1
  exact absurd hid (by decide)

end Journal

end Downline
