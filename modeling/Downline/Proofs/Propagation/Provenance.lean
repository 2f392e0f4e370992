import Downline.Proofs.Ancestry
import Downline.Proofs.Maintenance.NonOverwrite
import Downline.Proofs.Propagation.Groups

/-! Where the logins come from that a propagation run passes on. The full people are listed once, but the
login of each is read again batch by batch, and nobody asks then whether it is still a real one. So a run
passes the placeholder on if, and only if, somebody else has given it to a listed person in between. -/

namespace Downline

variable {σ : Type}

/-! ### Vouched logins -/

namespace Propagation

/-- The logins that a store answers with are vouched for at that moment, and stay so while vouched logins
are written. `I` holds of the store all along. -/
structure Vouches (S : Store σ) (cfg : JobConfig) (full : IdSet) (I : σ → Prop)
    (V : σ → Credentials → Prop) : Prop where
  read : ∀ batch {s}, I s → I (S.call (.upwardPaths batch full cfg.maxDepth) s).2 ∧
    ∀ paths, (S.call (.upwardPaths batch full cfg.maxDepth) s).1 = .ok paths →
      ∀ path ∈ paths, V (S.call (.upwardPaths batch full cfg.maxDepth) s).2 path.credentials
  write : ∀ ids {login s}, I s → V s login →
    I (S.call (.setCredentials ids login (.notFull cfg.placeholderPassword)) s).2 ∧
      ∀ login', V s login' →
        V (S.call (.setCredentials ids login (.notFull cfg.placeholderPassword)) s).2 login'

namespace Vouches

variable {S : Store σ} {cfg : JobConfig} {full : IdSet} {I : σ → Prop} {V : σ → Credentials → Prop}
  (h : Vouches S cfg full I V)
include h

theorem writeAll (groups : List Inheritance) (written : Nat) {s : σ} (hs : I s)
    (hg : ∀ g ∈ groups, V s g.credentials) :
    I ((writeAll (.notFull cfg.placeholderPassword) groups written).run S s).2 := by
  induction groups generalizing written s with
  | nil => exact hs
  | cons group rest ih =>
    obtain ⟨hs', hkeep⟩ := h.write group.targets.toList hs (hg group List.mem_cons_self)
    apply Prog.snd_run_request hs'
    · intro n _
      exact ih _ hs' fun g hgr => hkeep _ (hg g (List.mem_cons_of_mem group hgr))
    · intro e _
      exact hs'

theorem settle (batch : List PersonId) {s : σ} (hs : I s) :
    I ((settle cfg full batch).run S s).2 := by
  obtain ⟨hs', hread⟩ := h.read batch hs
  apply Prog.snd_run_request hs'
  · intro paths hpaths
    have hgroups : ∀ g ∈ (inheritances full paths).toList.map (·.2),
        V (S.call (.upwardPaths batch full cfg.maxDepth) s).2 g.credentials := by
      intro g hg
      obtain ⟨terminator, hgroup⟩ := mem_inheritances hg
      obtain ⟨path, hpath, -, hcred⟩ := exists_path_of_inheritance hgroup
      rw [← hcred]
      exact hread paths hpaths path hpath
    have hall := h.writeAll _ 0 hs' hgroups
    apply Prog.snd_run_bind hall
    intro a _
    cases a with
    | error e => exact hall
    | ok written => exact hall
  · intro e _
    exact hs'

theorem settleAll (batches : List (List PersonId)) (index : Nat) (done : List BatchEntry) {s : σ}
    (hs : I s) : I ((settleAll cfg full index batches done).run S s).2 := by
  induction batches generalizing index done s with
  | nil => exact hs
  | cons batch rest ih =>
    have hs' := h.settle batch hs
    apply Prog.snd_run_bind hs'
    intro a _
    cases a with
    | ok outcome => exact ih _ _ hs'
    | error e =>
      cases batch with
      | nil => exact hs'
      | cons first others => exact ih _ _ hs'

end Vouches

/-- A run over a store that vouches for the logins it answers with, whomever it lists as full. -/
theorem invariant_of_vouches {S : Store σ} {cfg : JobConfig} {I : σ → Prop} {V : σ → Credentials → Prop}
    {J : IdSet → σ → Prop} {s : σ}
    (hempty : I (S.call .emptyIds s).2)
    (hfull : ∀ s', I s' → I (S.call (.fullIds cfg.placeholderPassword) s').2 ∧
      ∀ full, (S.call (.fullIds cfg.placeholderPassword) s').1 = .ok full →
        J full (S.call (.fullIds cfg.placeholderPassword) s').2)
    (hvouches : ∀ full, Vouches S cfg full (J full) V) (hJ : ∀ full s', J full s' → I s') :
    I ((propagation cfg).run S s).2 := by
  apply Prog.snd_run_request hempty
  · intro empty _
    obtain ⟨hs', hlisted⟩ := hfull _ hempty
    apply Prog.snd_run_request hs'
    · intro full hanswer
      by_cases hb : cfg.batchSize = 0
      · simp only [hb, if_true]
        exact hs'
      · simp only [hb, if_false]
        have hall := (hvouches full).settleAll (batchesOf cfg.batchSize empty) 0 []
          (hlisted full hanswer)
        exact Prog.snd_run_bind (hJ full _ hall) fun entries _ => hJ full _ hall
    · intro e _
      exact hs'
  · intro e _
    exact hempty

end Propagation

/-! ### Calls among other writers -/

namespace Watched

/-- Memory as the next call meets it. -/
def met (w : Watched) : MemoryStore :=
  (w.outside w.log.length).foldl MemoryStore.edit w.memory.arrive

theorem call_eq (c : Call) (w : Watched) : store.call c w = ((w.met.perform c).1, { w with
    memory := (w.met.perform c).2.leave
    log := ⟨c, w.met.tree, (w.met.perform c).2.tree⟩ :: w.log }) := rfl

/-- A path that is answered carries the login that its terminator holds at that moment. -/
theorem held_of_call_upwardPaths {batch : List PersonId} {full : IdSet} {maxDepth : UInt32}
    {w : Watched} {paths : List UpwardPath}
    (h : (store.call (.upwardPaths batch full maxDepth) w).1 = .ok paths) {path : UpwardPath}
    (hpath : path ∈ paths) :
    path.terminator ∈ full ∧ w.met.tree.credentialsOf path.terminator = some path.credentials := by
  rw [call_eq, MemoryStore.perform] at h
  rcases MemoryStore.reading_cases (s := w.met) batch
    (batch.filterMap (w.met.tree.upwardPath? full maxDepth)) with ⟨hr, -⟩ | ⟨e, hr, -⟩
  · rw [hr] at h
    cases h
    obtain ⟨origin, -, ho⟩ := List.mem_filterMap.mp hpath
    obtain ⟨-, k, -, hfirst, hlogin, -⟩ := Tree.upwardPath?_eq_some_iff.mp ho
    exact ⟨hfirst.holds, hlogin⟩
  · rw [hr] at h
    cases h

end Watched

/-! ### Where a login comes from -/

/-- The latest reading of paths found the login with a person who had been listed as full before it; what
the run has done since then is to write. -/
structure Effect.Sources (read : Effect) (placeholder : String) (log : List Effect)
    (terminator : PersonId) (login : Credentials) : Prop where
  reads : read.call.operation = .upwardPaths
  held : read.before.credentialsOf terminator = some login
  latest : ∃ writes earlier, log = writes ++ read :: earlier ∧
    (∀ e ∈ writes, e.call.operation = .setCredentials) ∧
    ∃ listing ∈ earlier, listing.call = .fullIds placeholder ∧
      listing.before.stateOf placeholder terminator = .full

/-- A write on top of the log leaves the latest reading where it was. -/
theorem Effect.Sources.cons {read e : Effect} {placeholder : String} {log : List Effect}
    {terminator : PersonId} {login : Credentials}
    (h : read.Sources placeholder log terminator login) (he : e.call.operation = .setCredentials) :
    read.Sources placeholder (e :: log) terminator login := by
  obtain ⟨writes, earlier, rfl, hwrites, hlisting⟩ := h.latest
  refine ⟨h.reads, h.held, e :: writes, earlier, rfl, ?_, hlisting⟩
  intro e' he'
  rcases List.mem_cons.mp he' with rfl | he'
  · exact he
  · exact hwrites e' he'

/-- Every write of the log passes a login on that has a source. -/
def Sourced (placeholder : String) (log : List Effect) : Prop :=
  ∀ e earlier ids login guard, e :: earlier <:+ log → e.call = .setCredentials ids login guard →
    ∃ terminator read, Effect.Sources read placeholder earlier terminator login

theorem Sourced.cons {placeholder : String} {log : List Effect} {e : Effect}
    (h : Sourced placeholder log) (he : ∀ ids login guard, e.call = .setCredentials ids login guard →
      ∃ terminator read, Effect.Sources read placeholder log terminator login) :
    Sourced placeholder (e :: log) := by
  intro e' earlier ids login guard hsuffix hcall
  rcases List.suffix_cons_iff.mp hsuffix with heq | hsuffix
  · cases heq
    exact he ids login guard hcall
  · exact h e' earlier ids login guard hsuffix hcall

theorem Sourced.read {placeholder : String} {w : Watched} (h : Sourced placeholder w.log) {c : Call}
    (hc : c.operation ≠ .setCredentials) : Sourced placeholder (Watched.store.call c w).2.log := by
  rw [Watched.call_eq]
  apply h.cons
  intro ids login guard hcall
  exact absurd (congrArg Call.operation hcall) hc

/-- The full people are those whom a listing in the log has found. -/
def ListedIn (placeholder : String) (log : List Effect) (full : IdSet) : Prop :=
  ∃ listing ∈ log, listing.call = .fullIds placeholder ∧
    full = listing.before.fullIds placeholder

/-- Among other writers, whatever they do, every login that is passed on has a source. -/
theorem vouches_sources (cfg : JobConfig) (full : IdSet) :
    Propagation.Vouches Watched.store cfg full
      (fun w => Sourced cfg.placeholderPassword w.log ∧ ListedIn cfg.placeholderPassword w.log full)
      (fun w login => ∃ terminator read,
        Effect.Sources read cfg.placeholderPassword w.log terminator login) where
  read batch w hw := by
    obtain ⟨hsourced, listing, hmem, hlisting, hfull⟩ := hw
    refine ⟨⟨hsourced.read nofun, listing, List.mem_cons_of_mem _ hmem, hlisting, hfull⟩, ?_⟩
    intro paths hpaths path hpath
    obtain ⟨hterminator, hheld⟩ := Watched.held_of_call_upwardPaths hpaths hpath
    rw [hfull] at hterminator
    -- This reading is the latest now, and nothing has been written since.
    exact ⟨path.terminator, ⟨_, w.met.tree, _⟩, rfl, hheld, [], w.log, rfl, nofun, listing, hmem,
      hlisting, Tree.mem_fullIds.mp hterminator⟩
  write ids login w hw hlogin := by
    obtain ⟨hsourced, listing, hmem, hlisting, hfull⟩ := hw
    refine ⟨⟨hsourced.cons ?_, listing, List.mem_cons_of_mem _ hmem, hlisting, hfull⟩, ?_⟩
    · intro ids' login' guard' hcall
      cases hcall
      exact hlogin
    -- The logins that are still to be written come from the same reading as before.
    · intro login' hlogin'
      obtain ⟨terminator, read, hsource⟩ := hlogin'
      exact ⟨terminator, read, hsource.cons rfl⟩

theorem sourced_propagation (cfg : JobConfig) {w : Watched} (hw : w.log = []) :
    Sourced cfg.placeholderPassword ((propagation cfg).run Watched.store w).2.log := by
  have hnil : Sourced cfg.placeholderPassword w.log := by
    rw [hw]
    intro e earlier ids login guard hsuffix
    cases List.suffix_nil.mp hsuffix
  have hempty : Sourced cfg.placeholderPassword (Watched.store.call .emptyIds w).2.log :=
    hnil.read nofun
  apply Propagation.invariant_of_vouches (I := fun w => Sourced cfg.placeholderPassword w.log)
    hempty ?_ (vouches_sources cfg) fun full w' h => h.1
  intro w' hw'
  refine ⟨hw'.read nofun, ?_⟩
  intro full hfull
  cases hfull
  exact ⟨hw'.read nofun, _, List.mem_cons_self, rfl, rfl⟩

/-! ### Other writers who keep to real logins -/

/-- The change from outside does not give anybody the placeholder as the password of a complete login. -/
def Edit.GivesRealLogin (placeholder : String) : Edit → Prop
  | insert person => ∀ login, person.attributes.credentials? = some login → login.password ≠ placeholder
  | overwrite _ login => ∀ c, login = some c → c.password ≠ placeholder
  | _ => True

/-- Whatever complete login one of these people holds is a real one. -/
def Tree.RealLogins (t : Tree) (placeholder : String) (people : IdSet) : Prop :=
  ∀ x ∈ people, ∀ login, t.credentialsOf x = some login → login.password ≠ placeholder

namespace Tree.RealLogins

variable {t : Tree} {placeholder : String} {people : IdSet}

theorem of_fullIds (t : Tree) (placeholder : String) :
    t.RealLogins placeholder (t.fullIds placeholder) := by
  intro x hx login hlogin
  obtain ⟨c, hc, hreal⟩ := stateOf_full_iff.mp (mem_fullIds.mp hx)
  rw [hc] at hlogin
  cases hlogin
  exact hreal

theorem edit {s : MemoryStore} (h : s.tree.RealLogins placeholder people) {e : Edit}
    (he : e.GivesRealLogin placeholder) : (s.edit e).tree.RealLogins placeholder people := by
  intro x hx login hlogin
  cases e with
  | insert person =>
    rw [MemoryStore.edit, credentialsOf, person?_insert] at hlogin
    split at hlogin
    · exact he login hlogin
    · exact h x hx login hlogin
  | attach parent child side => exact h x hx login hlogin
  | overwrite id given =>
    rw [MemoryStore.edit, credentialsOf, person?_setLogin] at hlogin
    split at hlogin
    · obtain ⟨r, hr, hlogin⟩ := Option.bind_eq_some_iff.mp hlogin
      obtain ⟨r₀, -, rfl⟩ := Option.map_eq_some_iff.mp hr
      cases given with
      | none => cases hlogin
      | some c =>
        cases hlogin
        exact he c rfl
    · exact h x hx login hlogin
  | failOn id => exact h x hx login hlogin
  | clearFailures => exact h x hx login hlogin

theorem foldl_edit {edits : List Edit} {s : MemoryStore}
    (h : s.tree.RealLogins placeholder people)
    (he : ∀ e ∈ edits, e.GivesRealLogin placeholder) :
    (edits.foldl MemoryStore.edit s).tree.RealLogins placeholder people := by
  induction edits generalizing s with
  | nil => exact h
  | cons e rest ih =>
    exact ih (h.edit (he e List.mem_cons_self)) fun e' he' => he e' (List.mem_cons_of_mem e he')

theorem write (h : t.RealLogins placeholder people) {ids : List PersonId} {c : Credentials}
    {guard : WriteGuard} (hc : c.password ≠ placeholder) :
    (t.write ids c guard).2.RealLogins placeholder people := by
  intro x hx login hlogin
  by_cases hw : x ∈ t.writable ids guard
  · obtain ⟨-, r, hr, -⟩ := person_of_writable hw
    rw [credentialsOf_of_person (person?_write_of_writable hr hw), r.credentials_holding] at hlogin
    cases hlogin
    exact hc
  · rw [credentialsOf_congr (person?_write_of_not_writable hw)] at hlogin
    exact h x hx login hlogin

theorem perform {s : MemoryStore} (h : s.tree.RealLogins placeholder people) {c : Call}
    (hc : c.GivesRealLogin placeholder) : (s.perform c).2.tree.RealLogins placeholder people := by
  have hread (hsame : (s.perform c).2.tree = s.tree) :
      (s.perform c).2.tree.RealLogins placeholder people := by
    rw [hsame]
    exact h
  cases c with
  | setCredentials ids login guard =>
    rcases MemoryStore.perform_setCredentials_cases (s := s) ids login guard with
      ⟨-, htree, -⟩ | ⟨e, -, hsame, -⟩
    · rw [htree]
      exact h.write hc.2
    · rw [hsame.tree]
      exact h
  | person | relations | emptyIds | fullIds | upwardPaths | rekeyCandidates | downwardPath
  | credentialCensus => exact hread (MemoryStore.tree_perform _ nofun)

end Tree.RealLogins

namespace Watched

/-- No change from outside gives the placeholder away. -/
def RealOutside (w : Watched) (placeholder : String) : Prop :=
  ∀ n, ∀ e ∈ w.outside n, e.GivesRealLogin placeholder

/-- Every call so far has given real logins only, and so will the changes from outside. -/
structure OnlyReal (w : Watched) (placeholder : String) : Prop where
  outside : w.RealOutside placeholder
  log : ∀ e ∈ w.log, e.call.GivesRealLogin placeholder

variable {w : Watched} {placeholder : String}

theorem OnlyReal.call (h : w.OnlyReal placeholder) {c : Call} (hc : c.GivesRealLogin placeholder) :
    (store.call c w).2.OnlyReal placeholder where
  outside := h.outside
  log e he := by
    rcases List.mem_cons.mp he with rfl | he
    · exact hc
    · exact h.log e he

theorem RealOutside.met (h : w.RealOutside placeholder) {people : IdSet}
    (hreal : w.memory.tree.RealLogins placeholder people) :
    w.met.tree.RealLogins placeholder people :=
  Tree.RealLogins.foldl_edit (s := w.memory.arrive) hreal (h _)

end Watched

/-- Among other writers who keep to real logins, all logins that are passed on are real. -/
theorem vouches_real (cfg : JobConfig) (full : IdSet) :
    Propagation.Vouches Watched.store cfg full
      (fun w => w.OnlyReal cfg.placeholderPassword ∧
        w.memory.tree.RealLogins cfg.placeholderPassword full)
      (fun _ login => login.password ≠ cfg.placeholderPassword) where
  read batch w hw := by
    obtain ⟨hreal, hfull⟩ := hw
    have hmet := hreal.outside.met hfull
    have hread : Call.GivesRealLogin cfg.placeholderPassword
        (.upwardPaths batch full cfg.maxDepth) := trivial
    refine ⟨⟨hreal.call hread, hmet.perform hread⟩, ?_⟩
    intro paths hpaths path hpath
    obtain ⟨hterminator, hheld⟩ := Watched.held_of_call_upwardPaths hpaths hpath
    exact hmet path.terminator hterminator path.credentials hheld
  write ids login w hw hlogin := by
    obtain ⟨hreal, hfull⟩ := hw
    have hgives : Call.GivesRealLogin cfg.placeholderPassword
        (.setCredentials ids login (.notFull cfg.placeholderPassword)) := ⟨rfl, hlogin⟩
    exact ⟨⟨hreal.call hgives, (hreal.outside.met hfull).perform hgives⟩, fun _ h => h⟩

theorem onlyReal_propagation (cfg : JobConfig) {w : Watched} (hw : w.log = [])
    (h : w.RealOutside cfg.placeholderPassword) :
    ((propagation cfg).run Watched.store w).2.OnlyReal cfg.placeholderPassword := by
  have hstart : w.OnlyReal cfg.placeholderPassword := by
    refine ⟨h, ?_⟩
    rw [hw]
    exact nofun
  have hempty : (Watched.store.call .emptyIds w).2.OnlyReal cfg.placeholderPassword :=
    hstart.call trivial
  apply Propagation.invariant_of_vouches (I := fun w => w.OnlyReal cfg.placeholderPassword)
    hempty ?_ (vouches_real cfg) fun full w' h => h.1
  intro w' hw'
  have hlisted : (Watched.store.call (.fullIds cfg.placeholderPassword) w').2.OnlyReal
      cfg.placeholderPassword := hw'.call trivial
  refine ⟨hlisted, ?_⟩
  intro full hfull
  cases hfull
  exact ⟨hlisted, Tree.RealLogins.of_fullIds w'.met.tree cfg.placeholderPassword⟩

/-! ### Who ends up with the placeholder -/

/-- A person whom a lawful call changes by a real login is full afterwards. -/
theorem Effect.Lawful.full_of_changed {e : Effect} {placeholder : String} (h : e.Lawful placeholder)
    {ids : List PersonId} {login : Credentials} {guard : WriteGuard}
    (hcall : e.call = .setCredentials ids login guard) (hreal : login.password ≠ placeholder)
    {x : PersonId} (hx : e.after.person? x ≠ e.before.person? x) :
    e.after.stateOf placeholder x = .full := by
  rcases h.people x with hsame | ⟨ids', c, guard', r, hc, -, -, hafter⟩
  · exact absurd hsame hx
  · rw [hcall] at hc
    cases hc
    refine Tree.stateOf_full_iff.mpr ⟨login, ?_, hreal⟩
    rw [Tree.credentialsOf_of_person hafter, r.credentials_holding]

/-- Among other writers, each write of a propagation run passes on the login that a person listed as full
held when paths were last read. That is the placeholder only if the person was full no longer; if it is
another one, whoever is written is full afterwards. Where nobody outside gives the placeholder away, no
write of the run does. -/
theorem writes_pass_on_logins_read (cfg : JobConfig) (w : Watched) (hw : w.log = []) :
    (∀ e earlier ids login guard,
      e :: earlier <:+ ((propagation cfg).run Watched.store w).2.log →
      e.call = .setCredentials ids login guard →
        (∃ terminator read, Effect.Sources read cfg.placeholderPassword earlier terminator login ∧
          (login.password = cfg.placeholderPassword ↔
            read.before.stateOf cfg.placeholderPassword terminator ≠ .full)) ∧
        (login.password ≠ cfg.placeholderPassword → ∀ x,
          e.after.person? x ≠ e.before.person? x →
            e.after.stateOf cfg.placeholderPassword x = .full)) ∧
      (w.RealOutside cfg.placeholderPassword →
        ∀ e ∈ ((propagation cfg).run Watched.store w).2.log,
          e.call.GivesRealLogin cfg.placeholderPassword) := by
  constructor
  · intro e earlier ids login guard hsuffix hcall
    have hsourced := sourced_propagation cfg hw
    obtain ⟨terminator, read, hsource⟩ := hsourced e earlier ids login guard hsuffix hcall
    have hfull : read.before.stateOf cfg.placeholderPassword terminator = .full ↔
        login.password ≠ cfg.placeholderPassword := by
      rw [Tree.stateOf_full_iff, hsource.held]
      simp
    refine ⟨⟨terminator, read, hsource, ?_⟩, ?_⟩
    · rw [Ne, hfull, not_not]
    · have hnil : ∀ e ∈ w.log, e.Lawful cfg.placeholderPassword := by
        rw [hw]
        exact nofun
      have hlawful := (Watched.keeps_lawful cfg.placeholderPassword).run
        (asks_propagation cfg) hnil e (hsuffix.mem List.mem_cons_self)
      intro hreal x hx
      exact hlawful.full_of_changed hcall hreal hx
  · intro h
    exact (onlyReal_propagation cfg hw h).log

/-- The login that a call gives, if it is a write. -/
def Call.gives? : Call → Option Credentials
  | setCredentials _ login _ => some login
  | _ => none

theorem Call.exists_of_gives {c : Call} {login : Credentials} (h : c.gives? = some login) :
    ∃ ids guard, c = .setCredentials ids login guard := by
  cases c with
  | setCredentials ids given guard =>
    cases h
    exact ⟨ids, guard, rfl⟩
  | person | relations | emptyIds | fullIds | upwardPaths | rekeyCandidates | downwardPath
  | credentialCensus => cases h

/-- A household where somebody else gives `root` another login right before paths are read. -/
def Watched.renewed (login : Credentials) : Watched where
  memory := { tree := .household }
  outside n := if n = 2 then [.overwrite ⟨"root"⟩ (some login)] else []

theorem Watched.outside_renewed {login : Credentials} {n : Nat} {e : Edit}
    (h : e ∈ (Watched.renewed login).outside n) : e = .overwrite ⟨"root"⟩ (some login) := by
  dsimp only [Watched.renewed] at h
  split at h
  · exact List.mem_singleton.mp h
  · cases h

/-- Another real login, given to the full person in between, is the one that is passed on. -/
theorem heirs_take_renewed_login :
    (Watched.renewed ⟨"boss", "new"⟩).log = [] ∧
      (Watched.renewed ⟨"boss", "new"⟩).RealOutside "changeme" ∧
      ∃ e earlier ids guard, e :: earlier <:+ ((propagation { placeholderPassword := "changeme" }).run
          Watched.store (.renewed ⟨"boss", "new"⟩)).2.log ∧
        e.call = .setCredentials ids ⟨"boss", "new"⟩ guard ∧ e.call.GivesRealLogin "changeme" ∧
        (∃ terminator read, Effect.Sources read "changeme" earlier terminator ⟨"boss", "new"⟩) ∧
        ∀ x, e.after.person? x ≠ e.before.person? x → e.after.stateOf "changeme" x = .full := by
  have houtside : (Watched.renewed ⟨"boss", "new"⟩).RealOutside "changeme" := by
    intro n e he
    rw [Watched.outside_renewed he]
    intro c hc
    cases hc
    decide
  obtain ⟨hsources, hreal⟩ := writes_pass_on_logins_read { placeholderPassword := "changeme" }
    (.renewed ⟨"boss", "new"⟩) rfl
  have hgives : (((propagation { placeholderPassword := "changeme" }).run Watched.store
      (.renewed ⟨"boss", "new"⟩)).2.log.head?.bind fun e => e.call.gives?) =
        some ⟨"boss", "new"⟩ := by
    decide +kernel
  obtain ⟨e, he, hlogin⟩ := Option.bind_eq_some_iff.mp hgives
  obtain ⟨ids, guard, hcall⟩ := Call.exists_of_gives hlogin
  obtain ⟨earlier, hlog⟩ := List.head?_eq_some_iff.mp he
  have hsuffix : e :: earlier <:+ ((propagation { placeholderPassword := "changeme" }).run
      Watched.store (.renewed ⟨"boss", "new"⟩)).2.log := by
    rw [hlog]
  obtain ⟨⟨terminator, read, hsource, -⟩, hfull⟩ := hsources e earlier ids _ guard hsuffix hcall
  exact ⟨rfl, houtside, e, earlier, ids, guard, hsuffix, hcall,
    hreal houtside e (hsuffix.mem List.mem_cons_self), ⟨terminator, read, hsource⟩,
    hfull (by decide)⟩

/-- The placeholder, given to the full person in between, is passed on as well. -/
theorem heirs_take_placeholder : ¬ ∀ (cfg : JobConfig) (w : Watched), cfg.validate = .ok () →
    w.log = [] → (∀ n, ∀ e ∈ w.outside n, ∃ id login, e = .overwrite id login) →
      ∀ e ∈ ((propagation cfg).run Watched.store w).2.log, ∀ ids login guard,
        e.call = .setCredentials ids login guard → login.password ≠ cfg.placeholderPassword := by
  intro h
  have houtside : ∀ n, ∀ e ∈ (Watched.renewed ⟨"boss", "changeme"⟩).outside n,
      ∃ id login, e = .overwrite id login := by
    intro n e he
    exact ⟨_, _, Watched.outside_renewed he⟩
  have hgives : (((propagation { placeholderPassword := "changeme" }).run Watched.store
      (.renewed ⟨"boss", "changeme"⟩)).2.log.head?.bind fun e => e.call.gives?) =
        some ⟨"boss", "changeme"⟩ := by
    decide +kernel
  obtain ⟨e, he, hlogin⟩ := Option.bind_eq_some_iff.mp hgives
  obtain ⟨ids, guard, hcall⟩ := Call.exists_of_gives hlogin
  exact h { placeholderPassword := "changeme" } (.renewed ⟨"boss", "changeme"⟩) (by decide) rfl
    houtside e (List.mem_of_head? he) ids ⟨"boss", "changeme"⟩ guard hcall rfl

end Downline
