import Downline.Proofs.Journal.Lookup

/-! Of files that the journal alone has saved, the one of a name holds the report that was saved last under
that id: the journal is a map from ids to reports. -/

namespace Downline

/-! ### Files that are written -/

namespace FileTree

variable {files files' : FileTree} {path directory : FilePath} {name text : String}
  {f : FilePath × String}

theorem files_of_makeDirectory (h : files.makeDirectory path = .ok files') :
    files'.files = files.files := by
  unfold makeDirectory at h
  split_ifs at h <;> cases h <;> rfl

theorem files_of_foldlM_makeDirectory {paths : List FilePath}
    (h : paths.foldlM makeDirectory files = .ok files') : files'.files = files.files := by
  induction paths generalizing files with
  | nil =>
    cases h
    rfl
  | cons p rest ih =>
    rw [List.foldlM_cons] at h
    cases hmake : files.makeDirectory p with
    | error e =>
      rw [hmake] at h
      cases h
    | ok made =>
      rw [hmake] at h
      rw [ih h, files_of_makeDirectory hmake]

theorem isFile_iff : files.isFile path = true ↔ ∃ f ∈ files.files, f.1 = path := by
  simp [isFile, read?]

/-- A file that is put stands in place of what stood at its path before. -/
theorem mem_files_put :
    f ∈ (files.put path text).files ↔ f = (path, text) ∨ f ∈ files.files ∧ f.1 ≠ path := by
  unfold put
  split_ifs with hfile
  · obtain ⟨old, hold, hpath⟩ := isFile_iff.mp hfile
    rw [List.mem_map]
    constructor
    · rintro ⟨g, hg, rfl⟩
      split_ifs with hne
      · exact .inl rfl
      · exact .inr ⟨hg, fun he => hne (beq_iff_eq.mpr he)⟩
    · rintro (rfl | ⟨hf, hne⟩)
      · exact ⟨old, hold, if_pos (beq_iff_eq.mpr hpath)⟩
      · exact ⟨f, hf, if_neg fun he => hne (beq_iff_eq.mp he)⟩
  · have hnone : ∀ g ∈ files.files, g.1 ≠ path := fun g hg he => hfile (isFile_iff.mpr ⟨g, hg, he⟩)
    rw [List.mem_append, List.mem_singleton, or_comm]
    exact or_congr_right ⟨fun hf => ⟨hf, hnone f hf⟩, fun hf => hf.1⟩

/-- Elements that are not sought may be changed to one that is not sought either. -/
theorem find?_map_ite {α : Type} {sought changed : α → Bool} {new : α} (hnew : sought new = false)
    (hold : ∀ a, changed a = true → sought a = false) (l : List α) :
    (l.map fun a => if changed a then new else a).find? sought = l.find? sought := by
  induction l with
  | nil => rfl
  | cons a rest ih =>
    rw [List.map_cons]
    cases hc : changed a with
    | true => rw [if_pos rfl, List.find?_cons_of_neg (by simp [hnew]), ih,
        List.find?_cons_of_neg (by simp [hold a hc])]
    | false => rw [if_neg Bool.false_ne_true, List.find?_cons, List.find?_cons, ih]

/-- A file of another name is found as before. -/
theorem find?_put_of_ne (h : path.getLast? ≠ some name) :
    (files.put path text).find? directory name = files.find? directory name := by
  have hother (f : FilePath × String) (hf : f.1 = path) : fits directory name f = false := by
    simp only [fits, hf, beq_eq_false_iff_ne.mpr h, Bool.and_false]
  rw [find?_eq, find?_eq, put]
  split_ifs with hfile
  · exact find?_map_ite (hother _ rfl) (fun f hf => hother f (beq_iff_eq.mp hf)) _
  · rw [List.find?_append, List.find?_singleton, hother _ rfl, if_neg Bool.false_ne_true,
      Option.or_none]

end FileTree

/-! ### Reports that are saved -/

namespace Journal

variable {j : Journal} {files files' : FileTree} {id : Uuid} {r : RunReport}

/-- The report of an id that was saved last. -/
def lastOf (saved : List RunReport) (id : Uuid) : Option RunReport :=
  saved.reverse.find? fun r => r.id == id

theorem lastOf_concat (saved : List RunReport) (r : RunReport) (id : Uuid) :
    lastOf (saved ++ [r]) id = if r.id = id then some r else lastOf saved id := by
  rw [lastOf, List.reverse_append, List.reverse_singleton, List.singleton_append, List.find?_cons]
  by_cases h : r.id = id
  · rw [beq_iff_eq.mpr h, if_pos h]
  · rw [beq_eq_false_iff_ne.mpr h, if_neg h, lastOf]

theorem mem_of_lastOf {saved : List RunReport} (h : lastOf saved id = some r) :
    r ∈ saved ∧ r.id = id :=
  ⟨List.mem_reverse.mp (List.mem_of_find?_eq_some h), beq_iff_eq.mp (List.find?_some h :)⟩

theorem files_of_save {kept : FilePath × FileTree} (h : j.save r files = .ok kept) :
    ∃ made : FileTree, made.files = files.files ∧
      kept.2 = made.put (j.pathOf r) r.toJson.pretty := by
  simp only [save] at h
  split at h
  · cases h
  next made hmade =>
    unfold FileTree.write at h
    split_ifs at h
    cases h
    exact ⟨made, FileTree.files_of_foldlM_makeDirectory hmade, rfl⟩

/-- Saving a report leaves alone what other ids give, whatever lies about. -/
theorem get_save_of_ne {kept : FilePath × FileTree} (h : j.save r files = .ok kept) (hne : id ≠ r.id) :
    j.get id kept.2 = j.get id files := by
  obtain ⟨made, hmade, hkept⟩ := files_of_save h
  have hname : (j.pathOf r).getLast? ≠ some (fileName id) := by
    rw [getLast?_pathOf]
    exact fun he => hne (fileName_injective (Option.some.inj he)).symm
  have hfind : kept.2.find? j.root (fileName id) = files.find? j.root (fileName id) := by
    rw [hkept, FileTree.find?_put_of_ne hname, FileTree.find?_eq, hmade, FileTree.find?_eq]
  rw [get, get, hfind]

/-- Below the root lie the reports that were saved last, each under its own path, and nothing else. -/
structure Keeps (j : Journal) (saved : List RunReport) (files : FileTree) : Prop where
  only : ∀ f ∈ files.files, j.IsBelow f.1 →
    ∃ r, lastOf saved r.id = some r ∧ f = (j.pathOf r, r.toJson.pretty)
  all : ∀ r, lastOf saved r.id = some r → (j.pathOf r, r.toJson.pretty) ∈ files.files

theorem keeps_nil (h : ∀ f ∈ files.files, ¬ j.IsBelow f.1) : j.Keeps [] files where
  only f hf hbelow := absurd hbelow (h f hf)
  all _ hr := nomatch hr

/-- Both started on one day. -/
def SameDay (r s : RunReport) : Prop :=
  r.startedAt.year = s.startedAt.year ∧ r.startedAt.month = s.startedAt.month ∧
    r.startedAt.day = s.startedAt.day

theorem pathOf_eq {s : RunReport} (hid : r.id = s.id) (hday : SameDay r s) :
    j.pathOf r = j.pathOf s := by
  obtain ⟨hyear, hmonth, hday⟩ := hday
  simp only [pathOf, Timestamp.datePath, hid, hyear, hmonth, hday]

theorem pathOf_ne {s : RunReport} (hid : r.id ≠ s.id) : j.pathOf r ≠ j.pathOf s := by
  intro h
  have hname := congrArg List.getLast? h
  rw [getLast?_pathOf, getLast?_pathOf] at hname
  exact hid (fileName_injective (Option.some.inj hname))

/-- Another report saved takes the place of the one before it under its id, and no other's. -/
theorem Keeps.save {saved : List RunReport} {kept : FilePath × FileTree} (h : j.Keeps saved files)
    (hsave : j.save r files = .ok kept) (hdays : ∀ s ∈ saved, s.id = r.id → SameDay s r) :
    j.Keeps (saved ++ [r]) kept.2 := by
  obtain ⟨made, hmade, hkept⟩ := files_of_save hsave
  have hmem (f : FilePath × String) : f ∈ kept.2.files ↔
      f = (j.pathOf r, r.toJson.pretty) ∨ f ∈ files.files ∧ f.1 ≠ j.pathOf r := by
    rw [hkept, FileTree.mem_files_put, hmade]
  constructor
  · intro f hf hbelow
    rcases (hmem f).mp hf with rfl | ⟨hf, hpath⟩
    · exact ⟨r, by rw [lastOf_concat, if_pos rfl], rfl⟩
    · obtain ⟨s, hs, rfl⟩ := h.only f hf hbelow
      -- An earlier report of this id began on the same day, so it lay at the path that was put.
      have hid : r.id ≠ s.id := by
        intro hid
        have hday : SameDay s r := hdays s (mem_of_lastOf hs).1 hid.symm
        exact hpath (pathOf_eq hid.symm hday)
      exact ⟨s, by rw [lastOf_concat, if_neg hid, hs], rfl⟩
  · intro s hs
    rw [hmem]
    rw [lastOf_concat] at hs
    split_ifs at hs with hid
    · cases hs
      exact .inl rfl
    · exact .inr ⟨h.all s hs, pathOf_ne fun he => hid he.symm⟩

/-- Saves the reports one after another. -/
def saveAll (j : Journal) (reports : List RunReport) (files : FileTree) : Except SyncError FileTree :=
  reports.foldlM (fun files r => (j.save r files).map (·.2)) files

theorem Keeps.saveAll {reports saved : List RunReport} (h : j.Keeps saved files)
    (hsave : j.saveAll reports files = .ok files')
    (hdays : ∀ r ∈ saved ++ reports, ∀ s ∈ saved ++ reports, r.id = s.id → SameDay r s) :
    j.Keeps (saved ++ reports) files' := by
  induction reports generalizing saved files with
  | nil =>
    cases hsave
    rw [List.append_nil]
    exact h
  | cons r rest ih =>
    rw [Journal.saveAll, List.foldlM_cons] at hsave
    cases hr : j.save r files with
    | error e =>
      rw [hr] at hsave
      cases hsave
    | ok kept =>
      rw [hr] at hsave
      have happend : saved ++ r :: rest = saved ++ [r] ++ rest := by simp
      have hstep : j.Keeps (saved ++ [r]) kept.2 :=
        h.save hr fun s hs => hdays s (List.mem_append_left _ hs) r (by simp)
      rw [happend] at hdays ⊢
      exact ih hstep hsave hdays

/-- Every file that a lookup may find holds the report that was saved last under its id. -/
theorem Keeps.eq_of_fits {saved : List RunReport} {f : FilePath × String} (h : j.Keeps saved files)
    (hf : f ∈ files.files) (hfits : FileTree.fits j.root (fileName id) f = true) :
    ∃ r, lastOf saved id = some r ∧ f = (j.pathOf r, r.toJson.pretty) := by
  obtain ⟨hroot, hlength, hname⟩ := FileTree.fits_iff.mp hfits
  obtain ⟨r, hr, rfl⟩ := h.only f hf ⟨hroot, hlength⟩
  have hid : r.id = id := by
    rw [getLast?_pathOf] at hname
    exact fileName_injective (Option.some.inj hname)
  rw [hid] at hr
  exact ⟨r, hr, rfl⟩

theorem Keeps.get_eq {saved : List RunReport} (h : j.Keeps saved files)
    (hrange : ∀ r ∈ saved, r.InRange) (id : Uuid) :
    j.get id files = match lastOf saved id with
      | none => .error (.journal (.notFound id.text))
      | some r => if r.verifies then .ok r else .error (.journal (.tampered id.text)) := by
  cases hlast : lastOf saved id with
  | none =>
    have hnone : files.find? j.root (fileName id) = none := by
      rw [Option.eq_none_iff_forall_ne_some]
      intro f hfound
      obtain ⟨hf, hfits⟩ := FileTree.mem_of_find? hfound
      obtain ⟨r, hr, -⟩ := h.eq_of_fits hf hfits
      rw [hlast] at hr
      cases hr
    simp only [get, hnone]
  | some r =>
    obtain ⟨hmem, rfl⟩ := mem_of_lastOf hlast
    obtain ⟨hroot, hlength⟩ := isBelow_pathOf (j := j) (r := r)
    have hfits : FileTree.fits j.root (fileName r.id) (j.pathOf r, r.toJson.pretty) = true :=
      FileTree.fits_iff.mpr ⟨hroot, hlength, getLast?_pathOf⟩
    -- Some file of the name is found, and whichever it is, it is that of the report.
    obtain ⟨f, hfound⟩ := FileTree.exists_find?_eq_some (h.all r hlast) hfits
    obtain ⟨hf, hfits'⟩ := FileTree.mem_of_find? hfound
    obtain ⟨r', hr', rfl⟩ := h.eq_of_fits hf hfits'
    obtain rfl : r = r' := Option.some.inj (hlast.symm.trans hr')
    have hread : RunReport.ofString? r.toJson.pretty = some r :=
      RunReport.ofString?_pretty (hrange r hmem)
    exact get_of_find? hfound hread

/-- A journal is a map. Whatever was saved into an empty root, an id gives the report that was saved last
under it if that verifies, an integrity error if it does not, and not found if there is none. And one more
report saved changes nothing of what other ids give. -/
theorem saves_make_a_map {reports : List RunReport} (hempty : ∀ f ∈ files.files, ¬ j.IsBelow f.1)
    (hrange : ∀ r ∈ reports, r.InRange)
    (hdays : ∀ r ∈ reports, ∀ s ∈ reports, r.id = s.id → SameDay r s)
    (hsave : j.saveAll reports files = .ok files') :
    (∀ id, j.get id files' = match lastOf reports id with
      | none => .error (.journal (.notFound id.text))
      | some r => if r.verifies then .ok r else .error (.journal (.tampered id.text))) ∧
    ∀ r kept, j.save r files' = .ok kept → ∀ id, id ≠ r.id → j.get id kept.2 = j.get id files' := by
  have hkeeps : j.Keeps reports files' := by
    simpa using (keeps_nil hempty).saveAll hsave (by simpa using hdays)
  exact ⟨hkeeps.get_eq hrange, fun r kept hkept id hne => get_save_of_ne hkept hne⟩

/-- In files of the journal's own all reports are saved, whichever they are. -/
theorem exists_saveAll (reports : List RunReport)
    (h : FileTree.Layered (j.root.length + 3) files) : ∃ files', j.saveAll reports files = .ok files' ∧
      FileTree.Layered (j.root.length + 3) files' := by
  induction reports generalizing files with
  | nil => exact ⟨files, rfl, h⟩
  | cons r rest ih =>
    obtain ⟨kept, hsave, hkept⟩ := j.exists_save h r
    obtain ⟨files', hrest, hlayered⟩ := ih hkept
    refine ⟨files', ?_, hlayered⟩
    rw [saveAll, List.foldlM_cons, hsave]
    exact hrest

/-- A run of another id on the same day. -/
def neighbourRun : RunReport := RunReport.sealed { RunReport.smallRun with id := Uuid.ofNat 12 }

/-- A run under a text that is not its hash. -/
def broken (r : RunReport) : RunReport := { r with contentHash := r.computeHash ++ "0" }

theorem not_verifies_broken (r : RunReport) : ¬ (broken r).verifies = true := by
  have happend : (r.computeHash ++ "0").length = r.computeHash.length + 1 :=
    String.length_append _ _
  rw [RunReport.verifies_iff]
  intro h
  have hlength : r.computeHash.length = (r.computeHash ++ "0").length := congrArg String.length h
  omega

def threeSaves : List RunReport := [.smallRun, neighbourRun, broken .smallRun]

theorem lastOf_threeSaves (id : Uuid) : lastOf threeSaves id =
    if Uuid.ofNat 10 = id then some (broken .smallRun)
    else if Uuid.ofNat 12 = id then some neighbourRun else none := by
  have hbroken : (broken .smallRun).id = Uuid.ofNat 10 := rfl
  have hneighbour : neighbourRun.id = Uuid.ofNat 12 := rfl
  have hsmall : RunReport.smallRun.id = Uuid.ofNat 10 := rfl
  show lastOf ([] ++ [.smallRun] ++ [neighbourRun] ++ [broken .smallRun]) id = _
  rw [lastOf_concat, lastOf_concat, lastOf_concat, hbroken, hneighbour, hsmall]
  split_ifs <;> rfl

theorem saved_runs_looked_up : ∃ files' kept,
    saveAll { root := ["runs"] } threeSaves {} = .ok files' ∧
      save { root := ["runs"] } .smallRun files' = .ok kept ∧
      get { root := ["runs"] } (Uuid.ofNat 12) files' = .ok neighbourRun ∧
      get { root := ["runs"] } (Uuid.ofNat 10) files' =
        .error (.journal (.tampered (Uuid.ofNat 10).text)) ∧
      get { root := ["runs"] } (Uuid.ofNat 11) files' =
        .error (.journal (.notFound (Uuid.ofNat 11).text)) ∧
      get { root := ["runs"] } (Uuid.ofNat 12) kept.2 = .ok neighbourRun := by
  have hlayered : FileTree.Layered (["runs"].length + 3) {} := by constructor <;> simp
  obtain ⟨files', hsave, hlayered'⟩ := exists_saveAll (j := { root := ["runs"] }) threeSaves hlayered
  obtain ⟨kept, hkept, -⟩ := exists_save { root := ["runs"] } hlayered' .smallRun
  have hneighbour : neighbourRun.InRange := ⟨by decide, by decide, by constructor <;> decide⟩
  have hbroken : (broken .smallRun).InRange := ⟨by decide, by decide, by constructor <;> decide⟩
  have hrange : ∀ r ∈ threeSaves, r.InRange := by
    simp [threeSaves, RunReport.inRange_smallRun, hneighbour, hbroken]
  have hdays : ∀ r ∈ threeSaves, ∀ s ∈ threeSaves, r.id = s.id → SameDay r s := by
    have hday : ∀ r ∈ threeSaves, r.startedAt = RunReport.smallRun.startedAt := by
      simp [threeSaves, neighbourRun, broken, RunReport.sealed]
    intro r hr s hs _
    simp [SameDay, hday r hr, hday s hs]
  obtain ⟨hget, hother⟩ := saves_make_a_map (by simp) hrange hdays hsave
  have hverified : neighbourRun.verifies = true := RunReport.verifies_sealed _
  have hnext : get { root := ["runs"] } (Uuid.ofNat 12) files' = .ok neighbourRun := by
    rw [hget, lastOf_threeSaves, if_neg (by decide), if_pos rfl]
    exact if_pos hverified
  refine ⟨files', kept, hsave, hkept, hnext, ?_, ?_, ?_⟩
  · rw [hget, lastOf_threeSaves, if_pos rfl]
    exact if_neg (not_verifies_broken _)
  · rw [hget, lastOf_threeSaves, if_neg (by decide), if_neg (by decide)]
  · rw [hother _ _ hkept _ (by decide)]
    exact hnext

end Journal

end Downline
