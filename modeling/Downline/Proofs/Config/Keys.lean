import Downline.Config.Load

/-! The settings by their keys. A section that is given reads each of its keys on its own, with the fallback of
the key where it is left out; a section that is not given stands as a whole. The two ways come to the same
settings for every key but one. -/

namespace Downline

/-- The sections of the settings. -/
inductive ConfigSection where
  | neo4j
  | jobs
  | schedule
deriving DecidableEq, Repr

def ConfigSection.name : ConfigSection → String
  | neo4j => "neo4j"
  | jobs => "jobs"
  | schedule => "schedule"

theorem ConfigSection.eq_of_name {part part' : ConfigSection} (h : part.name = part'.name) :
    part = part' := by
  cases part <;> cases part' <;> first | rfl | exact absurd h (by decide)

/-- The keys of the settings. -/
inductive ConfigKey where
  | uri
  | user
  | password
  | maxConnections
  | fetchSize
  | placeholderPassword
  | batchSize
  | maxDepth
  | maxInFlight
  | maxPasses
  | journalDir
  | intervalSecs
deriving DecidableEq, Repr

/-- What the settings hold under a key. -/
def SyncConfig.value (c : SyncConfig) : ConfigKey → Setting
  | .uri => .text c.neo4j.uri
  | .user => .text c.neo4j.user
  | .password => .text c.neo4j.password
  | .maxConnections => .int c.neo4j.maxConnections
  | .fetchSize => .int c.neo4j.fetchSize
  | .placeholderPassword => .text c.jobs.placeholderPassword
  | .batchSize => .int c.jobs.batchSize
  | .maxDepth => .int c.jobs.maxDepth.toNat
  | .maxInFlight => .int c.jobs.maxInFlight
  | .maxPasses => .int c.jobs.maxPasses
  | .journalDir => c.jobs.journalDir.elim .unset .text
  | .intervalSecs => .int c.schedule.intervalSecs

namespace ConfigKey

/-- The section that a key belongs to. -/
def within : ConfigKey → ConfigSection
  | uri | user | password | maxConnections | fetchSize => .neo4j
  | placeholderPassword | batchSize | maxDepth | maxInFlight | maxPasses | journalDir => .jobs
  | intervalSecs => .schedule

/-- The name of a key in its section. -/
def name : ConfigKey → String
  | uri => "uri"
  | user => "user"
  | password => "password"
  | maxConnections => "max_connections"
  | fetchSize => "fetch_size"
  | placeholderPassword => "placeholder_password"
  | batchSize => "batch_size"
  | maxDepth => "max_depth"
  | maxInFlight => "max_in_flight"
  | maxPasses => "max_passes"
  | journalDir => "journal_dir"
  | intervalSecs => "interval_secs"

/-- The path of a key, as the name of a variable spells it. -/
def path (k : ConfigKey) : String := k.within.name ++ "." ++ k.name

theorem pathOf_path (k : ConfigKey) :
    Setting.pathOf k.path = [.key k.within.name, .key k.name] := by
  cases k <;> rfl

/-- Keys go by different names, also those of different sections. -/
theorem eq_of_name {k k' : ConfigKey} (h : k.name = k'.name) : k = k' := by
  cases k <;> cases k' <;> first | rfl | exact absurd h (by decide)

/-- What a value counts for under a key. -/
def convert? : ConfigKey → Setting → Option Setting
  | uri | user | password | placeholderPassword => fun s => s.asText?.map .text
  | fetchSize | batchSize | maxInFlight | intervalSecs => fun s => s.asCount?.map fun n : Nat => .int n
  | maxConnections | maxPasses => fun s => (s.asBounded? UInt32.size).map fun n : Nat => .int n
  | maxDepth => fun s => (s.asBounded? UInt32.size).map fun n : Nat => .int (UInt32.ofNat n).toNat
  | journalDir => fun s => (s.asOption? Setting.asText?).map fun t => t.elim .unset .text

/-- What a key holds that its section leaves out. -/
def fallback (k : ConfigKey) : Setting := SyncConfig.value { neo4j := {} } k

/-- What a key holds in a section that is given, by what stands there for it. -/
def read? (k : ConfigKey) (found : Option Setting) : Option Setting :=
  found.elim (some k.fallback) k.convert?

/-- Without its section every key holds its fallback, but for the password of the database. -/
theorem value_default {k : ConfigKey} (h : k ≠ .password) :
    SyncConfig.value {} k = k.fallback := by
  cases k <;> first | rfl | exact absurd rfl h

end ConfigKey

/-! ### Fields of a section -/

namespace Setting

variable {α : Type} {entries : List (String × Setting)} {name : String}
  {value : Setting → Option α} {default a : α}

/-- A field of a section comes to what stands there for it. -/
theorem field?_eq_elim : field? entries name value default =
    ((table entries).get? name).elim (some default) value := by
  rw [field?, get?, Setting.entries]
  cases entries.find? fun e => e.1 == name <;> rfl

theorem field?_map (h : field? entries name value default = some a) (f : α → Setting) :
    ((table entries).get? name).elim (some (f default)) (fun v => (value v).map f) = some (f a) := by
  rw [field?_eq_elim] at h
  cases hg : (table entries).get? name with
  | none =>
    rw [hg] at h
    cases h
    rfl
  | some v =>
    rw [hg] at h
    exact congrArg (Option.map f) h

/-- Only tables and lists have fields. -/
theorem eq_table_or_list {names : List String} {s : Setting}
    (h : s.fields? names = some entries) : (∃ es, s = table es) ∨ ∃ items, s = list items := by
  cases s with
  | table es => exact .inl ⟨es, rfl⟩
  | list items => exact .inr ⟨items, rfl⟩
  | _ => cases h

end Setting

section Sections

variable {entries : List (String × Setting)} {c : SyncConfig} {k : ConfigKey}

theorem GraphConfig.read?_eq_value (h : GraphConfig.ofSetting? (.table entries) = some c.neo4j)
    (hk : k.within = .neo4j) : k.read? ((Setting.table entries).get? k.name) = some (c.value k) := by
  obtain ⟨neo4j, jobs, schedule⟩ := c
  simp only [ofSetting?, Setting.fields?, Option.bind_eq_bind, Option.bind_some,
    Option.bind_eq_some_iff, Option.pure_def, Option.some.injEq] at h
  obtain ⟨uri, huri, user, huser, password, hpassword, connections, hconnections, size, hsize, rfl⟩ := h
  cases k with
  | uri => exact Setting.field?_map huri .text
  | user => exact Setting.field?_map huser .text
  | password => exact Setting.field?_map hpassword .text
  | maxConnections => exact Setting.field?_map hconnections fun n => .int n
  | fetchSize => exact Setting.field?_map hsize fun n => .int n
  | _ => cases hk

theorem JobConfig.read?_eq_value (h : JobConfig.ofSetting? (.table entries) = some c.jobs)
    (hk : k.within = .jobs) : k.read? ((Setting.table entries).get? k.name) = some (c.value k) := by
  obtain ⟨neo4j, jobs, schedule⟩ := c
  simp only [ofSetting?, Setting.fields?, Option.bind_eq_bind, Option.bind_some,
    Option.bind_eq_some_iff, Option.pure_def, Option.some.injEq] at h
  obtain ⟨placeholder, hplaceholder, batch, hbatch, depth, hdepth, inFlight, hinFlight, passes, hpasses,
    journal, hjournal, rfl⟩ := h
  cases k with
  | placeholderPassword => exact Setting.field?_map hplaceholder .text
  | batchSize => exact Setting.field?_map hbatch fun n => .int n
  | maxDepth => exact Setting.field?_map hdepth fun n => .int (UInt32.ofNat n).toNat
  | maxInFlight => exact Setting.field?_map hinFlight fun n => .int n
  | maxPasses => exact Setting.field?_map hpasses fun n => .int n
  | journalDir => exact Setting.field?_map hjournal fun t => t.elim .unset .text
  | _ => cases hk

theorem ScheduleConfig.read?_eq_value
    (h : ScheduleConfig.ofSetting? (.table entries) = some c.schedule) (hk : k.within = .schedule) :
    k.read? ((Setting.table entries).get? k.name) = some (c.value k) := by
  obtain ⟨neo4j, jobs, schedule⟩ := c
  simp only [ofSetting?, Setting.fields?, Option.bind_eq_bind, Option.bind_some,
    Option.bind_eq_some_iff, Option.pure_def, Option.some.injEq] at h
  obtain ⟨interval, hinterval, rfl⟩ := h
  cases k with
  | intervalSecs => exact Setting.field?_map hinterval fun n => .int n
  | _ => cases hk

end Sections

/-! ### All settings -/

/-- Two settings have the same section. -/
def ConfigSection.Agree (c c' : SyncConfig) : ConfigSection → Prop
  | neo4j => c'.neo4j = c.neo4j
  | jobs => c'.jobs = c.jobs
  | schedule => c'.schedule = c.schedule

theorem ConfigSection.Agree.value_eq {c c' : SyncConfig} {k : ConfigKey}
    (h : k.within.Agree c c') : c'.value k = c.value k := by
  cases k with
  | uri | user | password | maxConnections | fetchSize =>
    have hneo4j : c'.neo4j = c.neo4j := h
    simp only [SyncConfig.value, hneo4j]
  | placeholderPassword | batchSize | maxDepth | maxInFlight | maxPasses | journalDir =>
    have hjobs : c'.jobs = c.jobs := h
    simp only [SyncConfig.value, hjobs]
  | intervalSecs =>
    have hschedule : c'.schedule = c.schedule := h
    simp only [SyncConfig.value, hschedule]

/-- A section of the settings is read from what is given for it; where nothing is, it stands as a whole. -/
def ConfigSection.Reads (found : Option Setting) (c : SyncConfig) : ConfigSection → Prop
  | neo4j => found.elim (some .local) GraphConfig.ofSetting? = some c.neo4j
  | jobs => found.elim (some {}) JobConfig.ofSetting? = some c.jobs
  | schedule => found.elim (some {}) ScheduleConfig.ofSetting? = some c.schedule

theorem SyncConfig.reads_of_setting {entries : List (String × Setting)} {c : SyncConfig}
    (h : SyncConfig.ofSetting? (.table entries) = some c) (part : ConfigSection) :
    part.Reads ((Setting.table entries).get? part.name) c := by
  simp only [ofSetting?, Setting.fields?, Option.bind_eq_bind, Option.bind_some,
    Option.bind_eq_some_iff, Option.pure_def, Option.some.injEq, Setting.field?_eq_elim] at h
  obtain ⟨neo4j, hneo4j, jobs, hjobs, schedule, hschedule, rfl⟩ := h
  cases part with
  | neo4j => exact hneo4j
  | jobs => exact hjobs
  | schedule => exact hschedule

namespace ConfigSection.Reads

variable {part : ConfigSection} {found : Option Setting} {c c' : SyncConfig} {k : ConfigKey}

/-- From the same the same is read. -/
theorem agree (h : part.Reads found c) (h' : part.Reads found c') : part.Agree c c' := by
  cases part with
  | neo4j | jobs | schedule => exact Option.some.inj (h'.symm.trans h)

/-- A key of a section that is not given. -/
theorem value_of_none (h : k.within.Reads none c) : c.value k = SyncConfig.value {} k := by
  have hdefault : k.within.Reads none {} := by cases k <;> rfl
  exact (hdefault.agree h).value_eq

/-- A key of a section that is given as a table. -/
theorem read?_of_table {entries : List (String × Setting)}
    (h : k.within.Reads (some (.table entries)) c) :
    k.read? ((Setting.table entries).get? k.name) = some (c.value k) := by
  cases hk : k.within with
  | neo4j =>
    rw [hk] at h
    exact GraphConfig.read?_eq_value h hk
  | jobs =>
    rw [hk] at h
    exact JobConfig.read?_eq_value h hk
  | schedule =>
    rw [hk] at h
    exact ScheduleConfig.read?_eq_value h hk

/-- A section that is given is a table or a list of its fields. -/
theorem eq_table_or_list {s : Setting} (h : part.Reads (some s) c) :
    (∃ entries, s = .table entries) ∨ ∃ items, s = .list items := by
  cases part with
  | neo4j | jobs | schedule =>
    obtain ⟨fields, hfields, -⟩ := Option.bind_eq_some_iff.mp h
    exact Setting.eq_table_or_list hfields

end ConfigSection.Reads

end Downline
