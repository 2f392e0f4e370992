import Downline.Proofs.Config.Keys

/-! Settings with one variable more in the environment. The tree of values with it and the one without it differ
under one key of one section for as long as further variables are laid over both; more of the section can
differ only where it is a list. -/

namespace Downline

namespace Setting

variable {t t' value : Setting} {key key' name part : String}

/-! ### Keys of a table -/

theorem exists_put_eq (s : Setting) (key : String) (value : Setting) :
    ∃ entries, s.put key value = table entries := by
  rw [put]
  split <;> exact ⟨_, rfl⟩

/-- An entry keeps its key when its value is replaced. -/
theorem find?_replaced (entries : List (String × Setting)) (key key' : String) (value : Setting) :
    (entries.map fun e => if e.1 == key then (key, value) else e).find? (fun e => e.1 == key') =
      (entries.find? fun e => e.1 == key').map fun e =>
        if e.1 == key then (key, value) else e := by
  have hkey (e : String × Setting) : (if e.1 == key then (key, value) else e).1 = e.1 := by
    split
    next h => exact (beq_iff_eq.mp h).symm
    next => rfl
  rw [List.find?_map]
  simp only [Function.comp_def, hkey]

theorem get?_put_of_ne (s value : Setting) (h : key' ≠ key) :
    (s.put key value).get? key' = s.get? key' := by
  rw [put]
  split
  · rw [get?, entries, find?_replaced, get?]
    cases hf : s.entries.find? fun e => e.1 == key' with
    | none => rfl
    | some e =>
      have he : e.1 = key' := by simpa using List.find?_some hf
      simp [he, h]
  · simp [get?, entries, List.find?_append, h.symm]

@[simp]
theorem get?_put_self (s : Setting) (key : String) (value : Setting) :
    (s.put key value).get? key = some value := by
  rw [put]
  split
  next h =>
    rw [get?, entries, find?_replaced]
    rw [get?] at h
    cases hf : s.entries.find? fun e => e.1 == key with
    | none => simp [hf] at h
    | some e =>
      have he : e.1 = key := by simpa using List.find?_some hf
      simp [he]
  next h =>
    have hnone : s.entries.find? (fun e => e.1 == key) = none := by
      rw [get?, Option.isSome_map, Option.not_isSome_iff_eq_none] at h
      exact h
    rw [get?, entries, List.find?_append, hnone]
    simp

/-! ### Paths -/

/-- A path that goes on with an index leads into a list, whatever stood there. -/
theorem exists_overlayAt_index (value : Setting) (i : Int) (rest : List Step) (s : Setting) :
    ∃ items, overlayAt value (.index i :: rest) s = list items := by
  cases rest <;> cases s <;> exact ⟨_, rfl⟩

theorem exists_pathOf_eq (key : String) : ∃ name rest, pathOf key = .key name :: rest := by
  simp only [pathOf]
  split
  · exact ⟨_, _, rfl⟩
  · split <;> exact ⟨_, _, rfl⟩

/-! ### Two sections -/

/-- What is given for a section without a variable for one of its keys and with it: the same under every other
key, unless both are lists. -/
inductive Apart (name : String) : Option Setting → Option Setting → Prop where
  | same (s : Setting) : Apart name (some s) (some s)
  | under {found : Option Setting} {entries : List (String × Setting)}
      (h : ∀ n, n ≠ name → (table entries).get? n = found.bind (·.get? n)) :
      Apart name found (some (table entries))
  | lists (items items' : List Setting) : Apart name (some (list items)) (some (list items'))

theorem get?_getD_unset (found : Option Setting) (n : String) :
    (found.getD unset).get? n = found.bind (·.get? n) := by
  cases found <;> rfl

theorem Apart.insert (found : Option Setting) (name : String) (value : Setting) :
    Apart name found (some ((found.getD unset).put name value)) := by
  obtain ⟨entries, hput⟩ := exists_put_eq (found.getD unset) name value
  rw [hput]
  refine .under fun n hn => ?_
  rw [← hput, get?_put_of_ne _ _ hn, get?_getD_unset]

/-- One more value is laid over both. -/
theorem Apart.overlayAt {found found' : Option Setting} (h : Apart name found found')
    (hv : ∀ s : Setting, s.overlay value = value) (path : List Step) :
    Apart name (some (Setting.overlayAt value path (found.getD unset)))
      (some (Setting.overlayAt value path (found'.getD unset))) := by
  cases path with
  | nil =>
    simp only [Setting.overlayAt, hv]
    exact .same value
  | cons step rest =>
    cases step with
    | index i =>
      obtain ⟨items, hitems⟩ := exists_overlayAt_index value i rest (found.getD unset)
      obtain ⟨items', hitems'⟩ := exists_overlayAt_index value i rest (found'.getD unset)
      rw [hitems, hitems']
      exact .lists items items'
    | key n =>
      simp only [Setting.overlayAt]
      cases h with
      | same s => exact .same _
      -- A list has no keys, so from both the same table is made.
      | lists items items' => exact .same _
      | @under _ entries h =>
        rw [Option.getD_some]
        obtain ⟨entries', hput⟩ := exists_put_eq (table entries) n
          (Setting.overlayAt value rest (((table entries).get? n).getD unset))
        rw [hput]
        refine .under fun m hm => ?_
        rw [← hput, Option.bind_some]
        -- Under its own key the variable may be built upon; under any other the same is built upon in both.
        by_cases hmn : m = n
        · rw [hmn] at hm ⊢
          rw [get?_put_self, get?_put_self, h n hm, get?_getD_unset]
        · rw [get?_put_of_ne _ _ hmn, get?_put_of_ne _ _ hmn, h m hm, get?_getD_unset]

/-! ### Two trees -/

/-- Two trees of sections that are the same but for one, and there apart under one key. -/
structure ApartIn (part name : String) (t t' : Setting) : Prop where
  others : ∀ p, p ≠ part → t'.get? p = t.get? p
  within : Apart name (t.get? part) (t'.get? part)

theorem ApartIn.insert (t value : Setting) (part name : String) :
    ApartIn part name t (overlayAt value [.key part, .key name] t) where
  others p hp := get?_put_of_ne _ _ hp
  within := by
    simp only [overlayAt, get?_put_self]
    exact .insert _ name _

theorem ApartIn.overlayAt (h : ApartIn part name t t')
    (hv : ∀ s : Setting, s.overlay value = value) (key : String) :
    ApartIn part name (Setting.overlayAt value (pathOf key) t)
      (Setting.overlayAt value (pathOf key) t') := by
  obtain ⟨n, rest, hpath⟩ := exists_pathOf_eq key
  rw [hpath]
  simp only [Setting.overlayAt]
  by_cases hn : n = part
  · rw [hn]
    refine ⟨fun p hp => ?_, ?_⟩
    · rw [get?_put_of_ne _ _ hp, get?_put_of_ne _ _ hp, h.others p hp]
    · rw [get?_put_self, get?_put_self]
      exact h.within.overlayAt hv rest
  · rw [h.others n hn]
    refine ⟨fun p hp => ?_, ?_⟩
    · by_cases hpn : p = n
      · rw [hpn, get?_put_self, get?_put_self]
      · rw [get?_put_of_ne _ _ hpn, get?_put_of_ne _ _ hpn, h.others p hp]
    · rw [get?_put_of_ne _ _ (Ne.symm hn), get?_put_of_ne _ _ (Ne.symm hn)]
      exact h.within

theorem ApartIn.addSource {source : List (String × Setting)} (h : ApartIn part name t t')
    (hv : ∀ e ∈ source, ∀ s : Setting, s.overlay e.2 = e.2) :
    ApartIn part name (t.addSource source) (t'.addSource source) := by
  induction source generalizing t t' with
  | nil => exact h
  | cons e rest ih =>
    obtain ⟨hfirst, hrest⟩ := List.forall_mem_cons.mp hv
    exact ih (h.overlayAt hfirst e.1) hrest

theorem exists_addSource_eq (entries source : List (String × Setting)) :
    ∃ entries', (table entries).addSource source = table entries' := by
  induction source generalizing entries with
  | nil => exact ⟨entries, rfl⟩
  | cons e rest ih =>
    obtain ⟨n, path, hpath⟩ := exists_pathOf_eq e.1
    obtain ⟨entries', hput⟩ := exists_put_eq (table entries) n
      (Setting.overlayAt e.2 path (((table entries).get? n).getD unset))
    have hlaid : Setting.overlayAt e.2 (pathOf e.1) (table entries) = table entries' := by
      rw [hpath, Setting.overlayAt, hput]
    obtain ⟨entries'', hrest⟩ := ih entries'
    refine ⟨entries'', ?_⟩
    rw [← hrest, ← hlaid]
    rfl

end Setting

/-! ### The environment -/

/-- The text of a variable is no table, so it replaces what stood in its place. -/
theorem Environment.overlay_valueOf (text : String) (s : Setting) :
    s.overlay (valueOf text) = valueOf text := by
  simp only [valueOf]
  split
  · simp [Setting.overlay]
  · split
    · simp [Setting.overlay]
    · split
      · simp [Setting.overlay]
      · split <;> simp [Setting.overlay]

theorem Environment.overlay_of_mem_settings {env : Environment} {e : String × Setting}
    (he : e ∈ env.settings) (s : Setting) : s.overlay e.2 = e.2 := by
  obtain ⟨v, -, hv⟩ := List.mem_filterMap.mp he
  obtain ⟨path, -, rfl⟩ := Option.map_eq_some_iff.mp hv
  exact overlay_valueOf v.2 s

namespace SyncConfig

variable {contents : Option (List (String × Setting))} {name text : String}
  {before after env : Environment} {c c' : SyncConfig} {k : ConfigKey}

theorem exists_tree_eq (fromFile : List (String × Setting)) (env : Environment) :
    ∃ entries, tree fromFile env = .table entries := by
  obtain ⟨entries, hfile⟩ := Setting.exists_addSource_eq [] fromFile
  rw [tree, hfile]
  exact Setting.exists_addSource_eq entries env.settings

/-- Further variables are laid over what the file and the first ones give. -/
theorem tree_append (fromFile : List (String × Setting)) (env env' : Environment) :
    tree fromFile (env ++ env') = (tree fromFile env).addSource (Environment.settings env') := by
  rw [tree, tree, Environment.settings, List.filterMap_append]
  exact List.foldl_append

theorem settings_cons (text : String) (env : Environment)
    (hname : Environment.path? name = some k.path) : Environment.settings ((name, text) :: env) =
      (k.path, Environment.valueOf text) :: Environment.settings env := by
  rw [Environment.settings, List.filterMap_cons, hname]
  rfl

/-- Wherever in the environment a variable for a key stands, the trees without it and with it are apart under
that key only. -/
theorem apartIn_tree (fromFile : List (String × Setting))
    (hname : Environment.path? name = some k.path) :
    Setting.ApartIn k.within.name k.name (tree fromFile (before ++ after))
      (tree fromFile (before ++ (name, text) :: after)) := by
  have hwith : tree fromFile (before ++ (name, text) :: after) =
      (Setting.overlayAt (Environment.valueOf text) [.key k.within.name, .key k.name]
        (tree fromFile before)).addSource (Environment.settings after) := by
    rw [tree_append, settings_cons text after hname, ← k.pathOf_path]
    rfl
  rw [hwith, tree_append]
  apply Setting.ApartIn.addSource
  · exact .insert _ _ _ _
  · intro e he
    exact Environment.overlay_of_mem_settings he

/-- What file and environment give for a section. -/
def given? (contents : Option (List (String × Setting))) (env : Environment) (part : ConfigSection) :
    Option Setting :=
  contents.bind fun fromFile => (tree fromFile env).get? part.name

/-- Settings that are loaded are read section by section. -/
theorem reads_of_contents (h : ofContents contents env = .ok c) (part : ConfigSection) :
    part.Reads (given? contents env part) c := by
  cases contents with
  | none => cases h
  | some fromFile =>
    obtain ⟨entries, htree⟩ := exists_tree_eq fromFile env
    rw [given?, Option.bind_some, htree]
    rw [ofContents] at h
    cases hread : ofSetting? (tree fromFile env) with
    | none => simp [hread] at h
    | some read =>
      have hsame : read = c := by
        simp only [hread] at h
        split at h
        · exact Except.ok.inj h
        · cases h
      rw [hsame, htree] at hread
      exact reads_of_setting hread part

theorem isSome_of_contents (h : ofContents contents env = .ok c) : contents.isSome := by
  cases contents with
  | none => cases h
  | some fromFile => rfl

/-! ### Environments alone -/

/-- The last variable sets its key in what the file and the other variables give. -/
theorem tree_append_variable (fromFile : List (String × Setting)) (env : Environment) (text : String)
    (hname : Environment.path? name = some k.path) :
    tree fromFile (env ++ [(name, text)]) =
      (tree fromFile env).put k.within.name ((((tree fromFile env).get? k.within.name).getD .unset).put
        k.name (Environment.valueOf text)) := by
  have hlast : tree fromFile (env ++ [(name, text)]) =
      Setting.overlayAt (Environment.valueOf text) (Setting.pathOf k.path) (tree fromFile env) := by
    rw [tree_append, settings_cons text [] hname]
    rfl
  rw [hlast, k.pathOf_path]
  simp only [Setting.overlayAt, Environment.overlay_valueOf]

theorem settings?_of_no_files (file : String) : SettingsFile.settings? {} file = some [] := by
  have hread (parts : Option FilePath) : parts.bind (FileTree.read? {}) = none := by
    cases parts <;> rfl
  simp only [SettingsFile.settings?, SettingsFile.find?, hread, List.findSome?_cons,
    List.findSome?_nil, Option.map_none, FileTree.read?, List.find?_nil, ite_self]

/-- Without files all settings come from the environment. -/
theorem load_of_no_files (file : String) (h : ofSetting? (tree [] env) = some c)
    (hv : c.jobs.validate = .ok ()) : load {} file env = .ok c := by
  rw [load, settings?_of_no_files, ofContents]
  simp only [h, hv]

/-- The least that an environment has to set. -/
def placeholderOnly : Environment := [("LINEAGE__JOBS__PLACEHOLDER_PASSWORD", "x")]

theorem tree_placeholderOnly : tree [] placeholderOnly =
    .table [("jobs", .table [("placeholder_password", .text "x")])] := by
  have hlast : placeholderOnly = [] ++ [("LINEAGE__JOBS__PLACEHOLDER_PASSWORD", "x")] := rfl
  rw [hlast, tree_append_variable (k := .placeholderPassword) [] [] "x" rfl]
  rfl

theorem load_placeholderOnly : load {} "lineage" placeholderOnly =
    .ok { jobs := { placeholderPassword := "x" } } := by
  refine load_of_no_files _ ?_ rfl
  rw [tree_placeholderOnly]
  rfl

/-! ### A variable more -/

variable (hname : Environment.path? name = some k.path)
include hname

theorem given?_of_ne {part : ConfigSection} (hpart : part ≠ k.within) :
    given? contents (before ++ (name, text) :: after) part =
      given? contents (before ++ after) part := by
  have hne : part.name ≠ k.within.name := fun h => hpart (ConfigSection.eq_of_name h)
  cases contents with
  | none => rfl
  | some fromFile => exact (apartIn_tree fromFile hname).others _ hne

theorem apart_given (hcontents : contents.isSome) :
    Setting.Apart k.name (given? contents (before ++ after) k.within)
      (given? contents (before ++ (name, text) :: after) k.within) := by
  obtain ⟨fromFile, rfl⟩ := Option.isSome_iff_exists.mp hcontents
  exact (apartIn_tree fromFile hname).within

omit hname

section Section

variable {found found' : Option Setting} {entries : List (String × Setting)} {k' : ConfigKey}
  (hne : k' ≠ k)
include hne

/-- A key of a section that names no key but for the variable. -/
theorem value_of_unnamed (hfound : ∀ n, found.bind (·.get? n) = none)
    (h : Setting.Apart k.name found (some (.table entries)))
    (hread : k'.within.Reads (some (.table entries)) c') : c'.value k' = k'.fallback := by
  have hother : k'.name ≠ k.name := fun h => hne (ConfigKey.eq_of_name h)
  have hleft : (Setting.table entries).get? k'.name = none := by
    cases h with
    | same => exact hfound k'.name
    | under h => rw [h k'.name hother, hfound]
  have hvalue := hread.read?_of_table
  rw [hleft] at hvalue
  exact (Option.some.inj hvalue).symm

/-- A key of a section that only the variable has brought about. -/
theorem value_of_brought (h : Setting.Apart k.name none found') (hread : k'.within.Reads found' c') :
    c'.value k' = k'.fallback := by
  obtain ⟨entries, rfl⟩ : ∃ entries, found' = some (.table entries) := by
    cases h
    exact ⟨_, rfl⟩
  exact value_of_unnamed hne (fun n => rfl) h hread

/-- A key of a section that is given as a table already. -/
theorem value_of_table (h : Setting.Apart k.name (some (.table entries)) found')
    (hread : k'.within.Reads (some (.table entries)) c) (hread' : k'.within.Reads found' c') :
    c'.value k' = c.value k' := by
  have hother : k'.name ≠ k.name := fun h => hne (ConfigKey.eq_of_name h)
  cases h with
  | same => exact (hread.agree hread').value_eq
  | under h =>
    have hvalue := hread.read?_of_table
    have hvalue' := hread'.read?_of_table
    rw [h k'.name hother, Option.bind_some, hvalue] at hvalue'
    exact (Option.some.inj hvalue').symm

end Section

/-- What a file gives to the settings is what it says, and whatever that is, in whichever form: a variable for
one key leaves all others as they are, wherever in the environment it stands, if the section is not written as a
list and, as far as the password of the database is concerned, if something else gives that section as well. If
nothing does, the password changes from one default to the other; and a list that gives way to a table leaves the
other keys of the section to their fallbacks. -/
theorem variable_sets_one_key (hname : Environment.path? name = some k.path) :
    (∀ files file env, load files file env = ofContents (SettingsFile.settings? files file) env) ∧
    ∀ contents c c', ofContents contents (before ++ after) = .ok c →
      ofContents contents (before ++ (name, text) :: after) = .ok c' →
      (∀ k', k'.within ≠ k.within → c'.value k' = c.value k') ∧
      ((∀ items, given? contents (before ++ after) k.within ≠ some (.list items)) →
        ∀ k', k' ≠ k → k'.within = k.within →
          (k' = .password → given? contents (before ++ after) .neo4j ≠ none) →
            c'.value k' = c.value k') ∧
      (k.within = .neo4j → k ≠ .password → given? contents (before ++ after) .neo4j = none →
        c.value .password = .text "lineage-dev" ∧ c'.value .password = .text "") ∧
      ∀ items entries, given? contents (before ++ after) k.within = some (.list items) →
        given? contents (before ++ (name, text) :: after) k.within = some (.table entries) →
          ∀ k', k' ≠ k → k'.within = k.within → c'.value k' = k'.fallback := by
  refine ⟨fun _ _ _ => rfl, fun contents c c' hload hload' => ?_⟩
  have hread := reads_of_contents hload
  have hread' := reads_of_contents hload'
  have hapart : Setting.Apart k.name (given? contents (before ++ after) k.within)
      (given? contents (before ++ (name, text) :: after) k.within) :=
    apart_given hname (isSome_of_contents hload)
  refine ⟨fun k' hout => ?_, fun hlist k' hne hin hpassword => ?_, fun hin hne hnone => ?_,
    fun items entries hlist htable k' hne hin => ?_⟩
  · have hsame := hread' k'.within
    rw [given?_of_ne hname hout] at hsame
    exact ((hread k'.within).agree hsame).value_eq
  · have hk : k'.within.Reads (given? contents (before ++ after) k.within) c := hin ▸ hread k.within
    have hk' : k'.within.Reads (given? contents (before ++ (name, text) :: after) k.within) c' :=
      hin ▸ hread' k.within
    cases hfound : given? contents (before ++ after) k.within with
    | none =>
      rw [hfound] at hapart hk
      have hnot : k' ≠ .password := by
        intro hpass
        rw [hpass] at hin
        rw [← hin] at hfound
        exact hpassword hpass hfound
      calc c'.value k'
        _ = k'.fallback := value_of_brought hne hapart hk'
        _ = SyncConfig.value {} k' := (ConfigKey.value_default hnot).symm
        _ = c.value k' := hk.value_of_none.symm
    | some s =>
      rw [hfound] at hapart hk
      obtain ⟨entries, rfl⟩ | ⟨items, rfl⟩ := hk.eq_table_or_list
      · exact value_of_table hne hapart hk hk'
      · exact absurd hfound (hlist items)
  · rw [hin, hnone] at hapart
    have hpassword : ConfigKey.password.within.Reads none c := hnone ▸ hread .neo4j
    exact ⟨hpassword.value_of_none, value_of_brought (Ne.symm hne) hapart (hread' .neo4j)⟩
  · rw [hlist, htable] at hapart
    have hk' : k'.within.Reads (some (.table entries)) c' := hin ▸ htable ▸ hread' k.within
    exact value_of_unnamed hne (fun n => rfl) hapart hk'

theorem batch_size_leaves_others :
    Environment.path? "LINEAGE__JOBS__BATCH_SIZE" = some ConfigKey.batchSize.path ∧
      load {} "lineage" (placeholderOnly ++ []) = .ok { jobs := { placeholderPassword := "x" } } ∧
      load {} "lineage" (placeholderOnly ++ ("LINEAGE__JOBS__BATCH_SIZE", "7") :: []) =
        .ok { jobs := { placeholderPassword := "x", batchSize := 7 } } ∧
      ∀ k, k ≠ .batchSize → value { jobs := { placeholderPassword := "x", batchSize := 7 } } k =
        value { jobs := { placeholderPassword := "x" } } k := by
  have hname : Environment.path? "LINEAGE__JOBS__BATCH_SIZE" = some ConfigKey.batchSize.path := rfl
  have hload : load {} "lineage" (placeholderOnly ++ []) =
      .ok { jobs := { placeholderPassword := "x" } } := by
    rw [List.append_nil]
    exact load_placeholderOnly
  have hload' : load {} "lineage" (placeholderOnly ++ ("LINEAGE__JOBS__BATCH_SIZE", "7") :: []) =
      .ok { jobs := { placeholderPassword := "x", batchSize := 7 } } := by
    refine load_of_no_files _ ?_ rfl
    rw [tree_append_variable [] _ "7" hname, tree_placeholderOnly]
    rfl
  have hgiven : given? (SettingsFile.settings? {} "lineage") (placeholderOnly ++ [])
      ConfigKey.batchSize.within = some (.table [("placeholder_password", .text "x")]) := by
    rw [given?, settings?_of_no_files, List.append_nil, Option.bind_some, tree_placeholderOnly]
    rfl
  obtain ⟨hout, hin, -⟩ := (variable_sets_one_key hname).2 _ _ _ hload hload'
  refine ⟨hname, hload, hload', fun k hk => ?_⟩
  by_cases hjobs : k.within = .jobs
  · refine hin (fun items hlist => ?_) k hk hjobs fun hpassword => ?_
    · rw [hgiven] at hlist
      cases hlist
    · rw [hpassword] at hjobs
      cases hjobs
  · exact hout k hjobs

/-- A variable for the user of the database takes its password away. -/
theorem user_takes_password_away :
    load {} "lineage" placeholderOnly = .ok { jobs := { placeholderPassword := "x" } } ∧
      load {} "lineage" (placeholderOnly ++ [("LINEAGE__NEO4J__USER", "u")]) =
        .ok { neo4j := { user := "u" }, jobs := { placeholderPassword := "x" } } ∧
      value { neo4j := { user := "u" }, jobs := { placeholderPassword := "x" } } .password ≠
        value { jobs := { placeholderPassword := "x" } } .password := by
  refine ⟨load_placeholderOnly, load_of_no_files _ ?_ rfl, fun h => ?_⟩
  · rw [tree_append_variable (k := .user) [] _ "u" rfl, tree_placeholderOnly]
    rfl
  · exact absurd (Setting.text.inj h) (by decide)

end SyncConfig

end Downline
