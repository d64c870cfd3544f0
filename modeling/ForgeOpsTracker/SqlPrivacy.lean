import ForgeOpsTracker.SdkPrivacy

/-! What of a statement leaves the process, with any configuration: of the SQL that is handed over
with a database span or with an error nothing but its masked text. Two runs whose statements differ
in what the mask takes out send the same. -/

namespace ForgeOps.Spans
open JsonText TraceParent

/-! ## A span with its statement -/

/-- A pair of the data that gives way to the statement or to the system. -/
def isReplaced (statement dbSystem : Option Bytes) (pair : Option Bytes × Option Bytes) : Bool :=
  (statement.isSome && pair.1 == some statementKey) || (dbSystem.isSome && pair.1 == some systemKey)

/-- `with_sql` (`forgeops_tracker.c`); `none` where it leaves the data as it is. -/
def withSql (kind statement dbSystem : Option Bytes) (data : Data)
    (allocated : Bool) : Option Data :=
  if kind ≠ some (ascii "database") ∨ (statement = none ∧ dbSystem = none) ∨ ¬ allocated then none
  else
    some (data.filter (fun pair => !isReplaced statement dbSystem pair) ++
      (statement.map fun value => (some statementKey, some value)).toList ++
      (dbSystem.map fun value => (some systemKey, some value)).toList)

/-- The data that the span is stopped or recorded with. -/
def sqlData (kind statement dbSystem : Option Bytes) (data : Data) (allocated : Bool) : Data :=
  (withSql kind statement dbSystem data allocated).getD data

/-- `forgeops_tracker_span_stop_with_sql` -/
def Action.stopWithSql (config : Configuration) (i : Nat) (name kind : Option Bytes)
    (durationMs : Double) (statement dbSystem : Option Bytes) (data : Data) (allocated : Bool)
    (alloc : Allocations) : Action :=
  .stop (some config) i (some (name.getD (ascii "span"))) kind durationMs
    (sqlData kind statement dbSystem data allocated) alloc

/-- `forgeops_tracker_record_span_with_sql` -/
def Action.recordWithSql (config : Configuration) (id : HexId 16) (name kind : Option Bytes)
    (startedAtUnixMs : Int) (durationMs : Double) (statement dbSystem : Option Bytes) (data : Data)
    (allocated : Bool) (alloc : Allocations) : Action :=
  .record (some config) id (some (name.getD (ascii "span"))) kind startedAtUnixMs durationMs
    (sqlData kind statement dbSystem data allocated) alloc

/-- The pair with its statement masked. -/
def maskedPair (system : Option Bytes) (pair : Option Bytes × Option Bytes) :
    Option Bytes × Option Bytes :=
  if pair.1 = some statementKey then (pair.1, SqlStatement.maskForSystem pair.2 system) else pair

/-- The text of a pair whose statement is masked already. -/
def maskedText (strict : Bool) (system : Option Bytes) (alloc : Allocations) :
    (Option Bytes × Option Bytes) × Nat → Option Bytes
  | ((key, value), i) =>
    (if key = some statementKey then if alloc.value i then value.map some else none
      else dataValue strict true system key value (alloc.value i)).map fun value =>
        jsonString (key.getD []) ++ ascii ":" ++ jsonString (value.getD [])

/-- Of a database span's data the masked pairs are written. -/
theorem dataPairs_masked (strict : Bool) (system : Option Bytes) (data : Data)
    (alloc : Allocations) : dataPairs strict true system data alloc =
      (data.map (maskedPair system)).zipIdx.filterMap (maskedText strict system alloc) := by
  rw [List.zipIdx_map, List.filterMap_map, dataPairs]
  refine List.filterMap_congr fun p _ => ?_
  obtain ⟨⟨key, value⟩, i⟩ := p
  show _ = maskedText strict system alloc (maskedPair system (key, value), i)
  by_cases hkey : key = some statementKey
  · subst hkey
    have hvalue : dataValue strict true system (some statementKey) value (alloc.value i) =
        if alloc.value i then (SqlStatement.maskForSystem value system).map some else none := by
      rw [dataValue, if_neg fun h => h.2.1 rfl, if_pos ⟨rfl, rfl⟩]
    rw [maskedPair, if_pos rfl, maskedText, if_pos rfl]
    exact congrArg (Option.map _) hvalue
  · rw [maskedPair, if_neg hkey, maskedText, if_neg hkey]

/-- The system is found in the masked pairs as well. -/
theorem dbSystem_masked (system : Option Bytes) (data : Data) (alloc : Allocations) :
    dbSystem (data.map (maskedPair system)) alloc = dbSystem data alloc := by
  rw [dbSystem, List.zipIdx_map, List.findSome?_map, dbSystem]
  congr 1
  funext p
  obtain ⟨⟨key, value⟩, i⟩ := p
  by_cases hkey : key = some statementKey
  · subst hkey
    have hother : ∀ value : Option Bytes,
        (if some statementKey = some systemKey ∧ alloc.system i = true then lowercaseTrimmed value
          else none) =
        none := fun value => if_neg fun h => absurd h.1 (by decide)
    exact (hother (SqlStatement.maskForSystem value system)).trans (hother value).symm
  · have hpair : maskedPair system (key, value) = (key, value) := if_neg hkey
    rw [Function.comp_apply, Prod.map_apply, hpair]
    rfl

/-- The data differ in what the mask takes out of their statements. -/
def SameMasks (alloc : Allocations) (data data' : Data) : Prop :=
  data.map (maskedPair (dbSystem data alloc)) = data'.map (maskedPair (dbSystem data alloc))

theorem SameMasks.dbSystem_eq {alloc : Allocations} {data data' : Data}
    (h : SameMasks alloc data data') : dbSystem data' alloc = dbSystem data alloc := by
  rw [← dbSystem_masked (dbSystem data alloc) data', ← h, dbSystem_masked]

theorem SameMasks.spanJson {config : Configuration} {kind : Option Bytes}
    (hdatabase : config.strictPrivacy = true ∨ normalizeKind kind = ascii "database")
    {alloc : Allocations} {data data' : Data} (h : SameMasks alloc data data') (id : HexId 16)
    (parent : Option (HexId 16)) (name : Option Bytes) (startedAtUnixMs : Int)
    (durationMs : Double) :
    spanJson config ⟨id, parent, name, kind, startedAtUnixMs, durationMs, data⟩ alloc =
      spanJson config ⟨id, parent, name, kind, startedAtUnixMs, durationMs, data'⟩ alloc := by
  have htrue : (config.strictPrivacy || normalizeKind kind == ascii "database") = true := by
    rcases hdatabase with hstrict | hkind
    · rw [hstrict, Bool.true_or]
    · rw [hkind, beq_self_eq_true, Bool.or_true]
  have hpairs : dataPairs config.strictPrivacy true (dbSystem data alloc) data alloc =
      dataPairs config.strictPrivacy true (dbSystem data alloc) data' alloc := by
    rw [dataPairs_masked, dataPairs_masked, h]
  simp only [Spans.spanJson, htrue, if_true, h.dbSystem_eq, hpairs]

/-- A statement stands in the data of a database span, and nowhere else. -/
theorem sqlData_cases (kind dbSystem : Option Bytes) (data : Data) (allocated : Bool) :
    (∀ statement : Bytes, sqlData kind (some statement) dbSystem data allocated = data) ∨
      kind = some (ascii "database") ∧ ∃ before after : Data, ∀ statement : Bytes,
        sqlData kind (some statement) dbSystem data allocated =
          before ++ (some statementKey, some statement) :: after := by
  by_cases hkind : kind = some (ascii "database")
  · cases allocated with
    | false => exact .inl fun statement => by simp [sqlData, withSql]
    | true =>
      refine .inr ⟨hkind, data.filter fun pair => !isReplaced (some []) dbSystem pair,
        (dbSystem.map fun value => (some systemKey, some value)).toList, fun statement => ?_⟩
      have hgiven : ¬ (kind ≠ some (ascii "database") ∨ (some statement = none ∧ dbSystem = none) ∨
          ¬ true = true) := by
        simp [hkind]
      rw [sqlData, withSql, if_neg hgiven, Option.getD_some, Option.map_some, Option.toList_some,
        List.append_assoc, List.singleton_append]
      rfl
  · exact .inl fun statement => by rw [sqlData, withSql, if_pos (.inl hkind), Option.getD_none]

theorem sqlData_sameMasks {kind dbSystem : Option Bytes} {data : Data} {allocated : Bool}
    {alloc : Allocations} {statement statement' : Bytes}
    (h : SqlStatement.maskForSystem (some statement)
        (Spans.dbSystem (sqlData kind (some statement) dbSystem data allocated) alloc) =
      SqlStatement.maskForSystem (some statement')
        (Spans.dbSystem (sqlData kind (some statement) dbSystem data allocated) alloc)) :
    SameMasks alloc (sqlData kind (some statement) dbSystem data allocated)
      (sqlData kind (some statement') dbSystem data allocated) := by
  rw [SameMasks]
  revert h
  generalize Spans.dbSystem (sqlData kind (some statement) dbSystem data allocated) alloc = system
  intro h
  rcases sqlData_cases kind dbSystem data allocated with hsame | ⟨-, before, after, hdata⟩
  · rw [hsame, hsame]
  · rw [hdata, hdata, List.map_append, List.map_append, List.map_cons, List.map_cons,
      maskedPair, maskedPair, if_pos rfl, if_pos rfl, h]

end ForgeOps.Spans

namespace ForgeOps.EventBuilder

/-- Of the statement of an error only the mask is read. -/
theorem sqlField_masked (config : Configuration) {sql sql' : Option Bytes}
    (h : SqlStatement.mask sql = SqlStatement.mask sql') :
    sqlField config sql = sqlField config sql' := by
  have hnone : ∀ s : Option Bytes, SqlStatement.mask s = none → sqlField config s = [] := by
    intro s hs
    rw [sqlField, hs]
    split <;> rfl
  cases hmask : SqlStatement.mask sql with
  | none => rw [hnone sql hmask, hnone sql' (h.symm.trans hmask)]
  | some masked =>
    cases sql with
    | none => exact absurd hmask (by simp [SqlStatement.mask, SqlStatement.maskForSystem])
    | some s =>
      cases sql' with
      | none =>
        exact absurd (h.symm.trans hmask) (by simp [SqlStatement.mask, SqlStatement.maskForSystem])
      | some s' => simp only [sqlField, Option.isSome_some, h]

theorem payload_masked (config : Configuration) (event : Event) {sql sql' : Option Bytes}
    (h : SqlStatement.mask sql = SqlStatement.mask sql') (surroundings : Surroundings) :
    buildEventJsonWithSql config { event with sql := sql } surroundings =
      buildEventJsonWithSql config { event with sql := sql' } surroundings := by
  unfold buildEventJsonWithSql
  rw [sqlField_masked config h]

end ForgeOps.EventBuilder

namespace ForgeOps.Sdk

/-! ## Two runs with other statements -/

/-- The same call, but for what the mask takes out of its statement. The statement of a span is
masked for the system that the span is sent with. -/
inductive Call.Masked : Call → Call → Prop
  | same (call : Call) : Call.Masked call call
  | spanStopWithSql {kind dbSystem : Option Bytes} {data : Spans.Data} {allocated : Bool}
      {alloc : Spans.Allocations} {statement statement' : Bytes} {system : Option Bytes}
      (hsystem : Spans.dbSystem
        (Spans.sqlData kind (some statement) dbSystem data allocated) alloc = system)
      (h : SqlStatement.maskForSystem (some statement) system =
        SqlStatement.maskForSystem (some statement') system)
      (thread : Nat) (config : Configuration) (i : Nat) (name : Option Bytes)
      (durationMs : Double) :
      Call.Masked
        (.tracker (.spans thread
          (.stopWithSql config i name kind durationMs
            (some statement) dbSystem data allocated alloc)))
        (.tracker (.spans thread
          (.stopWithSql config i name kind durationMs
            (some statement') dbSystem data allocated alloc)))
  | recordSpanWithSql {kind dbSystem : Option Bytes} {data : Spans.Data} {allocated : Bool}
      {alloc : Spans.Allocations} {statement statement' : Bytes} {system : Option Bytes}
      (hsystem : Spans.dbSystem
        (Spans.sqlData kind (some statement) dbSystem data allocated) alloc = system)
      (h : SqlStatement.maskForSystem (some statement) system =
        SqlStatement.maskForSystem (some statement') system)
      (thread : Nat) (config : Configuration) (id : TraceParent.HexId 16) (name : Option Bytes)
      (startedAtUnixMs : Int) (durationMs : Double) :
      Call.Masked
        (.tracker (.spans thread
          (.recordWithSql config id name kind startedAtUnixMs durationMs
            (some statement) dbSystem data allocated alloc)))
        (.tracker (.spans thread
          (.recordWithSql config id name kind startedAtUnixMs durationMs
            (some statement') dbSystem data allocated alloc)))
  | captureErrorWithSql {sql sql' : Option Bytes}
      (h : SqlStatement.mask sql = SqlStatement.mask sql') (thread : Nat) (config : Configuration)
      (capture : Capture) (symbols : Option (List Bytes)) (now : Nat) :
      Call.Masked (.captureError thread config { capture with sql := sql } symbols now)
        (.captureError thread config { capture with sql := sql' } symbols now)

/-- The states differ only in what finished spans were recorded with. -/
structure State.Masked (s t : State) : Prop where
  alike : s.Alike t
  users : s.users = t.users
  trails : s.trails = t.trails

theorem State.Masked.refl (s : State) : s.Masked s := ⟨State.Alike.refl s, rfl, rfl⟩

/-- A tracker call leaves users and breadcrumbs alone. -/
theorem step_tracker {s t : State} {call : Tracker.Call} (ht : step s (.tracker call) = some t) :
    t.users = s.users ∧ t.trails = s.trails := by
  obtain ⟨u, -, rfl⟩ := Option.map_eq_some_iff.mp ht
  exact ⟨rfl, rfl⟩

namespace State.Masked
variable {s t : State} (h : s.Masked t)
include h

theorem tracker {call call' : Tracker.Call}
    (hrel : Option.Rel State.Alike (step s (.tracker call)) (step t (.tracker call'))) :
    Option.Rel State.Masked (step s (.tracker call)) (step t (.tracker call')) := by
  cases hs : step s (.tracker call) with
  | none =>
    rw [hs] at hrel
    generalize step t (.tracker call') = next at hrel
    cases hrel
    exact .none
  | some u =>
    rw [hs] at hrel
    cases ht : step t (.tracker call') with
    | none =>
      rw [ht] at hrel
      cases hrel
    | some v =>
      rw [ht] at hrel
      cases hrel with
      | some huv =>
        obtain ⟨hsusers, hstrails⟩ := step_tracker hs
        obtain ⟨htusers, httrails⟩ := step_tracker ht
        exact .some ⟨huv, by rw [hsusers, htusers, h.users], by rw [hstrails, httrails, h.trails]⟩

theorem setUser (thread : Nat) (pairs : List (Bytes × Bytes)) :
    (setUser s thread pairs).Masked (Sdk.setUser t thread pairs) :=
  ⟨h.alike.setUser thread rfl, by simp only [Sdk.setUser, h.users], h.trails⟩

theorem handleBreadcrumb (thread : Nat) (event : Breadcrumbs.Event) :
    (handleBreadcrumb s thread event).Masked (Sdk.handleBreadcrumb t thread event) := by
  obtain ⟨halike, husers, htrails⟩ := h
  exact ⟨⟨halike.performance, halike.metrics, halike.infrastructure, halike.bodies,
    halike.threads, halike.users, halike.changes, halike.written⟩, husers, by
      simp only [Sdk.handleBreadcrumb, htrails]⟩

/-- Of an error's statement only the mask is written. -/
theorem captureError (thread : Nat) (config : Configuration) (capture : Capture)
    {sql sql' : Option Bytes} (hmask : SqlStatement.mask sql = SqlStatement.mask sql')
    (symbols : Option (List Bytes)) (now : Nat) :
    (captureError s thread config { capture with sql := sql } symbols now).Masked
      (Sdk.captureError t thread config { capture with sql := sql' } symbols now) := by
  have hevent : ∀ sql, s.event thread { capture with sql := sql } =
    { t.event thread capture with sql := sql } := by
    intro sql
    simp only [State.event, Capture.sentUser, h.users, h.trails]
  have hevent' : ∀ sql, t.event thread { capture with sql := sql } =
    { t.event thread capture with sql := sql } :=
    fun _ => rfl
  have hpayload := EventBuilder.payload_masked config (t.event thread capture) hmask
    ⟨now, symbols, t.traceId thread⟩
  have htrace := h.alike.traceId thread
  obtain ⟨halike, husers, htrails⟩ := h
  unfold Sdk.captureError
  split
  · rw [hevent, hevent', htrace, hpayload]
    exact ⟨⟨halike.performance, halike.metrics, halike.infrastructure, halike.bodies,
      halike.threads, halike.users, halike.changes, congrArg (· ++ [_]) halike.written⟩,
      husers, htrails⟩
  · exact ⟨halike, husers, htrails⟩

theorem recordChange (config : Configuration) (change : Change) (now : Int) :
    (recordChange s config change now).Masked (Sdk.recordChange t config change now) := by
  refine ⟨h.alike.recordChange config change now, ?_, ?_⟩
  · simp only [Sdk.recordChange]
    split <;> exact h.users
  · simp only [Sdk.recordChange]
    split <;> exact h.trails

/-- A span stopped with other data of the same masks. -/
theorem stop (thread : Nat) {config : Configuration} {kind : Option Bytes}
    {alloc : Spans.Allocations} {data data' : Spans.Data}
    (hdata : data = data' ∨ Spans.normalizeKind kind = ascii "database" ∧
      Spans.SameMasks alloc data data')
    (i : Nat) (name : Option Bytes) (durationMs : Double) :
    Option.Rel State.Masked
      (step s (.tracker (.spans thread (.stop (some config) i name kind durationMs data alloc))))
      (step t
        (.tracker (.spans thread (.stop (some config) i name kind durationMs data' alloc)))) := by
  refine h.tracker (.some (h.alike.setThread thread ((h.alike.threads thread).stop ?_ i)))
  rintro c ⟨⟩ id parent startedAtUnixMs
  rcases hdata with rfl | ⟨hkind, hmasks⟩
  · rfl
  · exact hmasks.spanJson (.inr hkind) id parent name startedAtUnixMs durationMs

/-- A span recorded with other data of the same masks. -/
theorem record (thread : Nat) {config : Configuration} {kind : Option Bytes}
    {alloc : Spans.Allocations} {data data' : Spans.Data}
    (hdata : data = data' ∨ Spans.normalizeKind kind = ascii "database" ∧
      Spans.SameMasks alloc data data')
    (id : TraceParent.HexId 16) (name : Option Bytes) (startedAtUnixMs : Int)
    (durationMs : Double) :
    Option.Rel State.Masked
      (step s (.tracker (.spans thread
        (.record (some config) id name kind startedAtUnixMs durationMs data alloc))))
      (step t (.tracker (.spans thread
        (.record (some config) id name kind startedAtUnixMs durationMs data' alloc)))) := by
  refine h.tracker (.some (h.alike.setThread thread ((h.alike.threads thread).record ?_ id)))
  rintro c ⟨⟩ id parent
  rcases hdata with rfl | ⟨hkind, hmasks⟩
  · rfl
  · exact hmasks.spanJson (.inr hkind) id parent name startedAtUnixMs durationMs

/-- The same call leads from such states to such states. -/
theorem same (call : Call) : Option.Rel State.Masked (step s call) (step t call) := by
  cases call with
  | tracker call => exact h.tracker (h.alike.trackerStep call)
  | setUser thread pairs => exact .some (h.setUser thread pairs)
  | breadcrumb thread event => exact .some (h.handleBreadcrumb thread event)
  | captureError thread config capture symbols now =>
    exact .some (h.captureError thread config capture rfl symbols now)
  | recordChange config change now => exact .some (h.recordChange config change now)

end State.Masked

/-- The data of two spans with other statements of the same mask. -/
theorem sqlData_masked {kind dbSystem : Option Bytes} {data : Spans.Data} {allocated : Bool}
    {alloc : Spans.Allocations} {statement statement' : Bytes} {system : Option Bytes}
    (hsystem : Spans.dbSystem (Spans.sqlData kind (some statement) dbSystem data allocated) alloc =
      system)
    (h : SqlStatement.maskForSystem (some statement) system =
      SqlStatement.maskForSystem (some statement') system) :
    Spans.sqlData kind (some statement) dbSystem data allocated =
        Spans.sqlData kind (some statement') dbSystem data allocated ∨
      Spans.normalizeKind kind = ascii "database" ∧
        Spans.SameMasks alloc (Spans.sqlData kind (some statement) dbSystem data allocated)
          (Spans.sqlData kind (some statement') dbSystem data allocated) := by
  subst hsystem
  rcases Spans.sqlData_cases kind dbSystem data allocated with hsame | ⟨rfl, -⟩
  · exact .inl ((hsame statement).trans (hsame statement').symm)
  · exact .inr ⟨by decide, Spans.sqlData_sameMasks h⟩

theorem unwinds_masked : Runs.Unwinds step State.Masked Call.Masked fun _ => False where
  both h hab := by
    cases hab with
    | same => exact h.same _
    | spanStopWithSql hsystem hmask thread config i name durationMs =>
      exact h.stop thread (sqlData_masked hsystem hmask) i _ durationMs
    | recordSpanWithSql hsystem hmask thread config id name startedAtUnixMs durationMs =>
      exact h.record thread (sqlData_masked hsystem hmask) id _ startedAtUnixMs durationMs
    | captureErrorWithSql hmask thread config capture symbols now =>
      exact .some (h.captureError thread config capture hmask symbols now)
  left _ ha := ha.elim
  right _ hb := hb.elim

/-- Whatever the threads do and however they are configured, two runs whose statements have the same
masks send the same, byte for byte. -/
theorem sent_masked {as bs : List Call} (h : List.Forall₂ Call.Masked as bs) :
    (Runs.exec step initial as).map State.sent = (Runs.exec step initial bs).map State.sent :=
  unwinds_masked.observe (fun _ _ hst => hst.alike.sent) (.of_forall₂ h) (State.Masked.refl initial)

def statementsConfiguration : Configuration :=
  { dsn := some (ascii "https://k@h"), captureSqlStatement := true }

/-- A query fails in a trace that is sent; for MySQL what stands between double quotes is a string
as well. -/
def failedQuery (mysql other : Bytes) : List Call :=
  [.tracker (.spans 0 (.traceBegin (some statementsConfiguration) none
      ⟨ascii "d1ce0fc0de51916cd43dd8448eb21131", rfl, rfl, rfl⟩
      ⟨ascii "5eed0fc0ffee1234", rfl, rfl, rfl⟩ true)),
    .tracker (.spans 0 (.recordWithSql statementsConfiguration
      ⟨ascii "0ddba11c0ffee123", rfl, rfl, rfl⟩ none (some (ascii "database")) 0 (.finite 0)
      (some mysql) (some (ascii " MySQL")) [] true {})),
    .captureError 0 statementsConfiguration { sql := some other } none 0,
    .tracker (.spans 0 (.traceEnd (some statementsConfiguration) none 0 (.finite 2000) true {}))]

theorem sent_masked_failedQuery :
    (Runs.exec step initial (failedQuery (ascii "SELECT \"jane\"")
      (ascii "SELECT 17"))).map State.sent =
      (Runs.exec step initial (failedQuery (ascii "SELECT \"bob\"")
        (ascii "SELECT 8"))).map State.sent ∧
    ∃ s,
      Runs.exec step initial (failedQuery (ascii "SELECT \"jane\"") (ascii "SELECT 17")) = some s ∧
      (s.tracker.threads 0).sent.length = 1 ∧ s.written.length = 1 := by
  have hsame :
      (Runs.exec step initial (failedQuery (ascii "SELECT \"jane\"") (ascii "SELECT 17"))).map
        State.sent =
          (Runs.exec step initial (failedQuery (ascii "SELECT \"bob\"") (ascii "SELECT 8"))).map
          State.sent := by
    refine sent_masked (.cons (.same _) (.cons ?_ (.cons ?_ (.cons (.same _) .nil))))
    · exact .recordSpanWithSql (show _ = some (ascii "mysql") by decide)
        (by decide) 0 statementsConfiguration _ none 0 _
    · exact .captureErrorWithSql (by decide) 0 statementsConfiguration {} none 0
  have hrun : Runs.exec step initial
      (failedQuery (ascii "SELECT \"jane\"") (ascii "SELECT 17")) = some _ := rfl
  exact ⟨hsame, _, hrun, rfl, rfl⟩

end ForgeOps.Sdk
