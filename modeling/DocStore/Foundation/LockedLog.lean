import DocStore.Foundation.AppendLog

/-!
# Rows that are appended under a lock

Every row of a log belongs to a key, and a transaction appends a row only while it holds the lock on
its key. Locks are held until a transaction ends, so nobody else appends to a key between the moment
a transaction locks it and the moment it commits: what the transaction finds there is what its rows
stand behind in the log. `System.kept_of_steps` is the rule that follows: a property of the rows of a key
holds in every schedule if every append keeps it under what is known since the lock was taken.
-/

set_option autoImplicit false
set_option relaxedAutoImplicit false

namespace DocStore.Foundation

variable {ι ρ κ ε α β τ : Type}

/-! ### Programs that lock before they append -/

namespace Program

variable (owner : ρ → κ) (may : List ρ → ρ → Prop)

/-- A program that appends a row only while it holds the lock on its key, and only as it may among
the rows that are visible. `seen` are rows that it has seen, and `held` are the keys that it has
locked. -/
def Obeys (post : α → List ρ → List κ → Prop) : List ρ → List κ → Program ρ κ ε α → Prop
  | seen, held, done result => post result seen held
  | _, _, fail _ => True
  | seen, held, read next => ∀ rows, seen ⊆ rows → (next rows).Obeys post rows held
  | seen, held, lock key next => next.Obeys post seen (key :: held)
  | seen, held, append make next => ∀ rows row, seen ⊆ rows → make rows = .ok row →
      owner row ∈ held ∧ may rows row ∧ (next row).Obeys post (rows ++ [row]) held

variable {owner may} {post : α → List ρ → List κ → Prop} {seen : List ρ} {held : List κ}

theorem obeys_pure {result : α} (hpost : post result seen held) :
    (pure result : Program ρ κ ε α).Obeys owner may post seen held :=
  hpost

theorem obeys_fail (error : ε) :
    (fail error : Program ρ κ ε α).Obeys owner may post seen held :=
  trivial

theorem obeys_bind {first : Program ρ κ ε α} {next : α → Program ρ κ ε β}
    {post : β → List ρ → List κ → Prop}
    (hfirst : first.Obeys owner may
      (fun value seen held ↦ (next value).Obeys owner may post seen held) seen held) :
    (first >>= next).Obeys owner may post seen held := by
  change (first.bind next).Obeys owner may post seen held
  induction first generalizing seen held with
  | done value => exact hfirst
  | fail error => trivial
  | read inner ih => exact fun rows hseen ↦ ih rows (hfirst rows hseen)
  | lock key inner ih => exact ih hfirst
  | append make inner ih =>
    intro rows row hseen hmake
    obtain ⟨howner, hmay, hrest⟩ := hfirst rows row hseen hmake
    exact ⟨howner, hmay, ih row hrest⟩

theorem Obeys.mono {program : Program ρ κ ε α} {weaker : α → List ρ → List κ → Prop}
    (hobeys : program.Obeys owner may post seen held)
    (hmono : ∀ result rows keys, seen ⊆ rows → held ⊆ keys → post result rows keys →
      weaker result rows keys) : program.Obeys owner may weaker seen held := by
  induction program generalizing seen held with
  | done result => exact hmono _ _ _ (List.Subset.refl _) (List.Subset.refl _) hobeys
  | fail error => trivial
  | read inner ih =>
    exact fun rows hseen ↦ ih rows (hobeys rows hseen) fun result rows' keys hrows hkeys ↦
      hmono result rows' keys (List.Subset.trans hseen hrows) hkeys
  | lock key inner ih =>
    exact ih hobeys fun result rows keys hrows hkeys ↦
      hmono result rows keys hrows (List.Subset.trans (List.subset_cons_self key held) hkeys)
  | append make inner ih =>
    intro rows row hseen hmake
    obtain ⟨howner, hmay, hrest⟩ := hobeys rows row hseen hmake
    refine ⟨howner, hmay, ih row hrest fun result rows' keys hrows hkeys ↦ ?_⟩
    have hrows' := List.Subset.trans (List.subset_append_left _ _) hrows
    exact hmono result rows' keys (List.Subset.trans hseen hrows') hkeys

theorem obeys_select_bind {next : List ρ → Program ρ κ ε β} {post : β → List ρ → List κ → Prop}
    (hnext : ∀ rows, seen ⊆ rows → (next rows).Obeys owner may post rows held) :
    (select >>= next).Obeys owner may post seen held :=
  hnext

theorem obeys_acquire_bind {key : κ} {next : Unit → Program ρ κ ε β}
    {post : β → List ρ → List κ → Prop}
    (hnext : (next ()).Obeys owner may post seen (key :: held)) :
    (acquire key >>= next).Obeys owner may post seen held :=
  hnext

/-- A program that appends nothing obeys. -/
theorem Silent.obeys {program : Program ρ κ ε α} (hsilent : program.Silent) (seen : List ρ)
    (held : List κ) : program.Obeys owner may (fun _ _ _ ↦ True) seen held := by
  induction program generalizing seen held with
  | done result => trivial
  | fail error => trivial
  | read inner ih => exact fun rows _ ↦ ih rows (hsilent rows) rows held
  | lock key inner ih => exact ih hsilent seen (key :: held)
  | append make inner ih => exact hsilent.elim

/-- A program that appends nothing, in front of one that goes on with what is seen and held. -/
theorem obeys_bind_of_silent {first : Program ρ κ ε α} {next : α → Program ρ κ ε β}
    {post : β → List ρ → List κ → Prop} (hsilent : first.Silent)
    (hnext : ∀ value rows keys, seen ⊆ rows → held ⊆ keys →
      (next value).Obeys owner may post rows keys) :
    (first >>= next).Obeys owner may post seen held :=
  obeys_bind ((hsilent.obeys seen held).mono fun value rows keys hrows hkeys _ ↦
    hnext value rows keys hrows hkeys)

theorem obeys_insert {make : List ρ → Except ε ρ} {post : ρ → List ρ → List κ → Prop}
    (hmake : ∀ rows row, seen ⊆ rows → make rows = .ok row →
      owner row ∈ held ∧ may rows row ∧ post row (rows ++ [row]) held) :
    (insert make : Program ρ κ ε ρ).Obeys owner may post seen held :=
  hmake

end Program

/-! ### Every schedule -/

section Schedules

variable [DecidableEq ι] [DecidableEq κ] [LE τ] [DecidableLE τ]
  {request : ι → τ → Program ρ κ ε α} {owner : ρ → κ} {may : τ → List ρ → ρ → Prop}
  {kept : List ρ → Prop} {known : τ → List ρ → Prop}

/-- The rows of a key. -/
def ownedRows (owner : ρ → κ) (key : κ) (rows : List ρ) : List ρ :=
  rows.filter fun row ↦ owner row = key

theorem ownedRows_append (key : κ) (first second : List ρ) :
    ownedRows owner key (first ++ second) =
      ownedRows owner key first ++ ownedRows owner key second :=
  List.filter_append ..

/-- Rows of other keys do not count. -/
theorem ownedRows_append_of_forall_ne {key : κ} {first second : List ρ}
    (hne : ∀ row ∈ second, owner row ≠ key) :
    ownedRows owner key (first ++ second) = ownedRows owner key first := by
  have hnone : ownedRows owner key second = [] :=
    List.filter_eq_nil_iff.mpr fun row hmem ↦ by simpa using hne row hmem
  rw [ownedRows_append, hnone, List.append_nil]

namespace System

/-- The lock that an action takes, with the start time of its transaction. -/
def locking (system : System ι ρ κ ε α τ) : Action ι τ → Option (κ × τ)
  | .statement index =>
    match system.status index with
    | .running { startedAt, program := .lock key _, .. } => some (key, startedAt)
    | _ => none
  | _ => none

/-- The condition on a step: what a transaction is to know about the rows of a key holds when it
takes the lock. -/
def LocksKnowing (owner : ρ → κ) (known : τ → List ρ → Prop) (system : System ι ρ κ ε α τ)
    (action : Action ι τ) : Prop :=
  ∀ lock ∈ system.locking action, known lock.2 (ownedRows owner lock.1 system.log)

/-- Where a running transaction stands: the rows of the keys that it holds have the property with
its own rows among them, and nobody else can add to them. -/
def Holding (owner : ρ → κ) (may : τ → List ρ → ρ → Prop) (kept : List ρ → Prop)
    (known : τ → List ρ → Prop) (system : System ι ρ κ ε α τ) (index : ι)
    (session : Session ρ κ ε α τ) : Prop :=
  ∃ seen held,
    session.program.Obeys owner (may session.startedAt) (fun _ _ _ ↦ True) seen held ∧
    seen ⊆ system.log ++ session.appended ∧
    (∀ key ∈ held, system.holder key = some index) ∧
    (∀ row ∈ session.appended, owner row ∈ held) ∧
    ∀ key ∈ held, kept (ownedRows owner key (system.log ++ session.appended)) ∧
      known session.startedAt (ownedRows owner key (system.log ++ session.appended))

variable {system next : System ι ρ κ ε α τ} {action : Action ι τ}

omit [DecidableEq ι] [LE τ] [DecidableLE τ] in
/-- What other transactions need of a statement: it adds rows only under locks that they do not
hold, and takes none of their locks. -/
theorem Holding.frame {other : ι} {session : Session ρ κ ε α τ} {added : List ρ}
    (hholding : system.Holding owner may kept known other session)
    (hlog : next.log = system.log ++ added)
    (hholder : ∀ key, system.holder key = some other → next.holder key = some other ∧
      ∀ row ∈ added, owner row ≠ key) :
    next.Holding owner may kept known other session := by
  obtain ⟨seen, held, hobeys, hseen, hheld, hown, hrows⟩ := hholding
  refine ⟨seen, held, hobeys, fun row hmem ↦ ?_, fun key hkey ↦ (hholder key (hheld key hkey)).1,
    hown, fun key hkey ↦ ?_⟩
  · rw [hlog, List.append_assoc]
    rcases List.mem_append.mp (hseen hmem) with hold | hnew
    · exact List.mem_append_left _ hold
    · exact List.mem_append_right _ (List.mem_append_right _ hnew)
  · have hsame : ownedRows owner key (next.log ++ session.appended) =
        ownedRows owner key (system.log ++ session.appended) := by
      rw [hlog, ownedRows_append,
        ownedRows_append_of_forall_ne (hholder key (hheld key hkey)).2, ownedRows_append]
    rw [hsame]
    exact hrows key hkey

/-- What holds in every schedule: the rows of every key have the property, and every running
transaction stands as it should. -/
structure Locked (owner : ρ → κ) (may : τ → List ρ → ρ → Prop) (kept : List ρ → Prop)
    (known : τ → List ρ → Prop) (system : System ι ρ κ ε α τ) : Prop where
  committed : ∀ key, kept (ownedRows owner key system.log)
  holding : ∀ index session, system.status index = .running session →
    system.Holding owner may kept known index session

omit [LE τ] [DecidableLE τ] in
/-- A statement of one transaction keeps what holds, if it does so for the transaction itself. -/
theorem Locked.of_frame {index : ι} {added : List ρ}
    (hlocked : system.Locked owner may kept known) (hlog : next.log = system.log ++ added)
    (hkept : ∀ key, kept (ownedRows owner key next.log))
    (hstatus : ∀ other, other ≠ index → next.status other = system.status other)
    (hholder : ∀ other, other ≠ index → ∀ key, system.holder key = some other →
      next.holder key = some other ∧ ∀ row ∈ added, owner row ≠ key)
    (hown : ∀ session, next.status index = .running session →
      next.Holding owner may kept known index session) :
    next.Locked owner may kept known where
  committed := hkept
  holding other session hother := by
    by_cases hsame : other = index
    · subst hsame
      exact hown session hother
    · rw [hstatus other hsame] at hother
      exact (hlocked.holding other session hother).frame hlog (hholder other hsame)

/-- **What one step keeps.** -/
theorem Locked.step (hlocked : system.Locked owner may kept known)
    (hrequest : ∀ index now,
      (request index now).Obeys owner (may now) (fun _ _ _ ↦ True) [] [])
    (happend : ∀ now rows row, may now rows row → kept (ownedRows owner (owner row) rows) →
      known now (ownedRows owner (owner row) rows) →
        kept (ownedRows owner (owner row) (rows ++ [row])) ∧
          known now (ownedRows owner (owner row) (rows ++ [row])))
    (hallowed : system.LocksKnowing owner known action)
    (hstep : system.step request action = some next) : next.Locked owner may kept known := by
  obtain ⟨index, -, -, rfl⟩ | ⟨index, session, haction, hrunning, hadvance⟩ | ⟨_, -, -, rfl⟩ :=
    step_cases hstep
  · have hstatus : ∀ other, other ≠ index → (system.setStatus index (.running
        { startedAt := system.clock, program := request index system.clock })).status other =
          system.status other :=
      fun other hne ↦ by simp [setStatus, hne]
    refine hlocked.of_frame (List.append_nil _).symm hlocked.committed hstatus
      (fun _ _ _ hheld ↦ ⟨hheld, List.forall_mem_nil _⟩) fun session hsession ↦ ?_
    simp only [setStatus, Function.update_self, Status.running.injEq] at hsession
    subst hsession
    exact ⟨[], [], hrequest index system.clock, List.nil_subset _, List.forall_mem_nil _,
      List.forall_mem_nil _, List.forall_mem_nil _⟩
  · have hholding := hlocked.holding index session hrunning
    obtain ⟨seen, held, hobeys, hseen, hheld, hown, hrows⟩ := hholding
    have hstatus : ∀ other, other ≠ index → next.status other = system.status other :=
      fun other hne ↦ status_of_advance hne hadvance
    have hfinished : ∀ other, other ≠ index → ∀ key, system.holder key = some other →
        (if system.holder key = some index then none else system.holder key) = some other := by
      intro other hne key hother
      rw [hother, if_neg fun heq ↦ hne (Option.some.inj heq)]
    have happended : ∀ other, other ≠ index → ∀ key, system.holder key = some other →
        ∀ row ∈ session.appended, owner row ≠ key := by
      intro other hne key hother row hmem hkey
      have hmine := hheld _ (hown row hmem)
      rw [hkey, hother] at hmine
      exact hne (Option.some.inj hmine)
    obtain ⟨result, hprogram, rfl⟩ | ⟨error, rfl, -⟩ | ⟨rest, hprogram, rfl⟩ |
      ⟨key, rest, hprogram, hfree, rfl⟩ | ⟨make, rest, row, hprogram, hmake, rfl⟩ :=
        advance_cases hadvance
    · -- the rows of a locked key are those the transaction has left, and it has no others
      refine hlocked.of_frame rfl (fun key ↦ ?_) hstatus (fun other hne key hother ↦
        ⟨hfinished other hne key hother, happended other hne key hother⟩) fun _ hsession ↦ ?_
      · by_cases hkey : key ∈ held
        · exact (hrows key hkey).1
        · have hother : ∀ row ∈ session.appended, owner row ≠ key :=
            fun row hmem heq ↦ hkey (heq ▸ hown row hmem)
          show kept (ownedRows owner key (system.log ++ session.appended))
          rw [ownedRows_append_of_forall_ne hother]
          exact hlocked.committed key
      · simp [finish, setStatus] at hsession
    · refine hlocked.of_frame (List.append_nil _).symm hlocked.committed hstatus
        (fun other hne key hother ↦ ⟨hfinished other hne key hother, List.forall_mem_nil _⟩)
        fun _ hsession ↦ ?_
      simp [finish, setStatus] at hsession
    · refine hlocked.of_frame (List.append_nil _).symm hlocked.committed hstatus
        (fun _ _ _ hother ↦ ⟨hother, List.forall_mem_nil _⟩) fun later hlater ↦ ?_
      simp only [setStatus, Function.update_self, Status.running.injEq] at hlater
      subst hlater
      rw [hprogram] at hobeys
      exact ⟨_, held, hobeys _ hseen, List.Subset.refl _, hheld, hown, hrows⟩
    · have hknown : known session.startedAt (ownedRows owner key system.log) := by
        refine hallowed (key, session.startedAt) ?_
        obtain ⟨startedAt, program, appended⟩ := session
        subst hprogram
        simp [locking, haction, hrunning]
      refine hlocked.of_frame (List.append_nil _).symm hlocked.committed hstatus
        (fun other hne wanted hother ↦ ⟨?_, List.forall_mem_nil _⟩) fun later hlater ↦ ?_
      · have hwanted : wanted ≠ key := by
          rintro rfl
          rcases hfree with hnone | hmine
          · rw [hnone] at hother
            cases hother
          · rw [hmine] at hother
            exact hne (Option.some.inj hother).symm
        simpa [setStatus, Function.update_of_ne hwanted] using hother
      · simp only [setStatus, Function.update_self, Status.running.injEq] at hlater
        subst hlater
        rw [hprogram] at hobeys
        refine ⟨seen, key :: held, hobeys, hseen, ?_, fun row hmem ↦
          List.mem_cons_of_mem _ (hown row hmem), ?_⟩
        · intro wanted hwanted
          by_cases hsame : wanted = key
          · simp [setStatus, hsame]
          · have hold := hheld wanted ((List.mem_cons.mp hwanted).resolve_left hsame)
            simpa [setStatus, Function.update_of_ne hsame] using hold
        · intro wanted hwanted
          by_cases hkey : wanted ∈ held
          · exact hrows wanted hkey
          · obtain rfl := (List.mem_cons.mp hwanted).resolve_right hkey
            have hother : ∀ row ∈ session.appended, owner row ≠ wanted :=
              fun row hmem heq ↦ hkey (heq ▸ hown row hmem)
            show kept (ownedRows owner wanted (system.log ++ session.appended)) ∧
              known session.startedAt (ownedRows owner wanted (system.log ++ session.appended))
            rw [ownedRows_append_of_forall_ne hother]
            exact ⟨hlocked.committed wanted, hknown⟩
    · refine hlocked.of_frame (List.append_nil _).symm hlocked.committed hstatus
        (fun _ _ _ hother ↦ ⟨hother, List.forall_mem_nil _⟩) fun later hlater ↦ ?_
      simp only [setStatus, Function.update_self, Status.running.injEq] at hlater
      subst hlater
      rw [hprogram] at hobeys
      obtain ⟨howner, hmay, hrest⟩ := hobeys _ row hseen hmake
      refine ⟨_, held, hrest, ?_, hheld, ?_, fun wanted hwanted ↦ ?_⟩
      · rw [← List.append_assoc]
        exact List.Subset.refl _
      · exact List.forall_mem_append.mpr ⟨hown, List.forall_mem_singleton.mpr howner⟩
      · rw [← List.append_assoc]
        by_cases hkey : owner row = wanted
        · subst hkey
          exact happend _ _ row hmay (hrows _ hwanted).1 (hrows _ hwanted).2
        · rw [ownedRows_append_of_forall_ne (List.forall_mem_singleton.mpr hkey)]
          exact hrows wanted hwanted
  · exact ⟨hlocked.committed, fun index session hrunning ↦ (hlocked.holding index session hrunning).frame
      (List.append_nil _).symm fun _ hheld ↦ ⟨hheld, List.forall_mem_nil _⟩⟩

/-- **The rule for schedules.** A property of the rows of a key that the log has and that every
append keeps under what is known since the lock was taken holds in every state reached. -/
theorem kept_of_steps {initial final : System ι ρ κ ε α τ}
    (hrequest : ∀ index now,
      (request index now).Obeys owner (may now) (fun _ _ _ ↦ True) [] [])
    (happend : ∀ now rows row, may now rows row → kept (ownedRows owner (owner row) rows) →
      known now (ownedRows owner (owner row) rows) →
        kept (ownedRows owner (owner row) (rows ++ [row])) ∧
          known now (ownedRows owner (owner row) (rows ++ [row])))
    (hidle : ∀ index, initial.status index = .waiting)
    (hinitial : ∀ key, kept (ownedRows owner key initial.log))
    (hrun : Steps (System.step request) (LocksKnowing owner known) initial final) (key : κ) :
    kept (ownedRows owner key final.log) := by
  have hstart : initial.Locked owner may kept known := by
    refine ⟨hinitial, fun index session hrunning ↦ ?_⟩
    rw [hidle index] at hrunning
    cases hrunning
  have hfinal : final.Locked owner may kept known :=
    hrun.invariant hstart fun _ _ _ hlocked hallowed hstep ↦
      hlocked.step hrequest happend hallowed hstep
  exact hfinal.committed key

end System

end Schedules

end DocStore.Foundation
