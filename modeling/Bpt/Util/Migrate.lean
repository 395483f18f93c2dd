-- SUMMARY: Database migrations: what a run applies, what it leaves when it fails, and how runs compose.
import Mathlib.Data.Int.ModEq
import Bpt.Base.Transaction

/-!
# Database migrations

A meta table holds the number of migrations that a database has seen. A run
applies the ones after these in a transaction, and then stores their number. The
stored number is read as an `int`, so that of a version that does not fit only
the low 32 bits count.
-/

namespace Bpt

open Transaction

variable {D : Type}

/-! ## Running migrations -/

/-- What a migration may throw. -/
inductive Thrown where
  /-- A `neo::sqlite3::error`. -/
  | sqlite (what : String)
  | other

/-- A migration changes the contents of the database, which are everything but
the meta table, or throws. -/
abbrev Migration (D : Type) := Action Thrown D Unit

/-- The migrations are a parameter pack, so that an `int` holds their number. -/
structure Migrations (D : Type) where
  fns : List (Migration D)
  size_lt : fns.length < 2 ^ 31

/-- The first `k` migrations. -/
def Migrations.take (ms : Migrations D) (k : Nat) : Migrations D where
  fns := ms.fns.take k
  size_lt := by
    have hlen := ms.size_lt
    rw [List.length_take]
    omega

inductive MetaValue where
  | integer (v : Int)
  | other
  deriving DecidableEq

structure MigratedDb (D : Type) where
  contents : D
  /-- The column `version` of the meta table, if there is one. -/
  metaRows : Option (List MetaValue)
  deriving DecidableEq

inductive DbMigrationErrc where
  | invalidVersionNumber
  | tooNew
  | genericError
  deriving DecidableEq

inductive MigrateFailure where
  /-- An error result: its code, if it has one, and its message. -/
  | result (errc : Option DbMigrationErrc) (message : String)
  /-- An exception of a migration that is not caught. -/
  | exception
  deriving DecidableEq

/-- `static_cast<int>`. -/
def castInt (v : Int) : Int := v.bmod (2 ^ 32)

namespace MigratedDb

/-- `CREATE TABLE IF NOT EXISTS`, with one row of version 0. -/
def initMetaTable (db : MigratedDb D) : MigratedDb D :=
  { db with metaRows := some (db.metaRows.getD [.integer 0]) }

/-- `UPDATE … SET version = …`, which has no WHERE clause. -/
def setVersion (version : Nat) (db : MigratedDb D) : MigratedDb D :=
  { db with metaRows := db.metaRows.map fun rows => rows.map fun _ => .integer version }

/-- The integer that the meta table holds, 0 when there is no meta table. -/
def storedVersion (db : MigratedDb D) : Option Int :=
  match db.metaRows with
  | none => some 0
  | some (.integer v :: _) => some v
  | some _ => none

end MigratedDb

/-- SQLite's own texts are left out of the message. -/
def getMigrationVersion (tablename : String) : Action MigrateFailure (MigratedDb D) Int := do
  let db ← get
  match db.metaRows with
  | none | some [] =>
    throw (.result none s!"Failed to find version for migrations table '{tablename}'")
  | some (.other :: _) =>
    throw (.result none
      s!"Invalid 'version' in meta table '{tablename}': Value must be an integer")
  | some (.integer v :: _) => return castInt v

/-- `(*it)->apply(db)` with its handler. -/
def applyMigration (migration : Migration D) : Action MigrateFailure (MigratedDb D) Unit := fun db =>
  match exec migration db.contents with
  | (.ok (), contents) => (.ok (), { db with contents := contents })
  | (.error (.sqlite what), contents) =>
    (.error (.result (some .genericError) what), { db with contents := contents })
  | (.error .other, contents) => (.error .exception, { db with contents := contents })

/-- The transaction of a run. Its guard rolls back also when an exception passes. -/
def migrateFrom (ms : Migrations D) (version : Int) : Action MigrateFailure (MigratedDb D) Unit :=
  transaction do
    forEach applyMigration (ms.fns.drop version.toNat)
    modify (MigratedDb.setVersion ms.fns.length)

def applyDbMigrations (tablename : String) (ms : Migrations D) :
    Action MigrateFailure (MigratedDb D) Unit := do
  modify MigratedDb.initMetaTable
  let version ← getMigrationVersion tablename
  if version < 0 then
    throw (.result (some .invalidVersionNumber) "Database migration value is negative")
  else if version > ms.fns.length then
    throw (.result (some .tooNew) "Database migration is too new")
  else
    migrateFrom ms version

/-! ## What a run does -/

/-- Every migration from `start` on is run once, in order, and succeeds. -/
def RunsFrom (ms : Migrations D) (start : Nat) (contents contents' : D) : Prop :=
  exec (forEach id (ms.fns.drop start)) contents = (.ok (), contents')

theorem castInt_eq {v : Int} (hlow : 0 ≤ v) (hhigh : v < 2 ^ 31) : castInt v = v :=
  Int.bmod_eq_of_le (by omega) (by omega)

theorem castInt_length (ms : Migrations D) : castInt ms.fns.length = ms.fns.length := by
  have hlen := ms.size_lt
  exact castInt_eq (by omega) (by omega)

theorem exec_applyMigration_eq_ok {migration : Migration D} {db db' : MigratedDb D} :
    exec (applyMigration migration) db = (.ok (), db') ↔
      ∃ contents, exec migration db.contents = (.ok (), contents) ∧
        db' = { db with contents := contents } := by
  have hexec : exec (applyMigration migration) db = applyMigration migration db := rfl
  rw [hexec, applyMigration]
  rcases exec migration db.contents with ⟨⟨⟨⟩ | _⟩ | _, contents⟩ <;> simp [eq_comm]

/-- The migrations only see the contents. -/
theorem exec_forEach_applyMigration_eq_ok {fns : List (Migration D)} {db db' : MigratedDb D} :
    exec (forEach applyMigration fns) db = (.ok (), db') ↔
      ∃ contents, exec (forEach id fns) db.contents = (.ok (), contents) ∧
        db' = { db with contents := contents } := by
  induction fns generalizing db with
  | nil =>
      constructor
      · intro h
        cases h
        exact ⟨_, rfl, rfl⟩
      · rintro ⟨_, h, rfl⟩
        cases h
        rfl
  | cons fn fns ih =>
      constructor
      · intro h
        obtain ⟨_, _, hfn, hrest⟩ := exec_bind_eq_ok.mp h
        obtain ⟨contents, hrun, rfl⟩ := exec_applyMigration_eq_ok.mp hfn
        obtain ⟨contents', hruns, rfl⟩ := ih.mp hrest
        exact ⟨contents', exec_bind_eq_ok.mpr ⟨(), contents, hrun, hruns⟩, rfl⟩
      · rintro ⟨contents', h, rfl⟩
        obtain ⟨_, contents, hfn, hrest⟩ := exec_bind_eq_ok.mp h
        exact exec_bind_eq_ok.mpr ⟨(), _, exec_applyMigration_eq_ok.mpr ⟨contents, hfn, rfl⟩,
          ih.mpr ⟨contents', hrest, rfl⟩⟩

theorem exec_getMigrationVersion (tablename : String) {db : MigratedDb D} {v : Int}
    (hv : db.storedVersion = some v) :
    exec (getMigrationVersion tablename) db.initMetaTable = (.ok (castInt v), db.initMetaTable) := by
  obtain ⟨contents, rows⟩ := db
  match rows, hv with
  | none, rfl => rfl
  | some (.integer _ :: _), rfl => rfl

theorem exec_migrateFrom_eq_ok {ms : Migrations D} {version : Int} {db db' : MigratedDb D} :
    exec (migrateFrom ms version) db = (.ok (), db') ↔
      ∃ contents, RunsFrom ms version.toNat db.contents contents ∧
        db' = MigratedDb.setVersion ms.fns.length { db with contents := contents } := by
  rw [migrateFrom, exec_transaction_eq_ok, exec_bind_eq_ok]
  constructor
  · rintro ⟨_, t, hloop, hset⟩
    obtain ⟨contents, hruns, rfl⟩ := exec_forEach_applyMigration_eq_ok.mp hloop
    cases hset
    exact ⟨contents, hruns, rfl⟩
  · rintro ⟨contents, hruns, rfl⟩
    exact ⟨(), _, exec_forEach_applyMigration_eq_ok.mpr ⟨contents, hruns, rfl⟩, rfl⟩

/-- A run after its version is read: an error, or the transaction. -/
theorem exec_applyDbMigrations (tablename : String) (ms : Migrations D) {db : MigratedDb D}
    {v : Int} (hv : db.storedVersion = some v) :
    (castInt v < 0 ∨ (ms.fns.length : Int) < castInt v) ∧
        (∃ e, exec (applyDbMigrations tablename ms) db = (.error e, db.initMetaTable)) ∨
      (0 ≤ castInt v ∧ castInt v ≤ ms.fns.length) ∧
        exec (applyDbMigrations tablename ms) db =
          exec (migrateFrom ms (castInt v)) db.initMetaTable := by
  rw [applyDbMigrations, exec_bind, exec_modify]
  dsimp only
  rw [exec_bind, exec_getMigrationVersion tablename hv]
  dsimp only
  split_ifs with hneg hnew
  · exact .inl ⟨.inl hneg, _, rfl⟩
  · exact .inl ⟨.inr hnew, _, rfl⟩
  · exact .inr ⟨⟨not_lt.mp hneg, not_lt.mp hnew⟩, rfl⟩

/-- A run succeeds when the version that it reads is in range and every migration
from it on succeeds. -/
theorem exec_applyDbMigrations_eq_ok {tablename : String} {ms : Migrations D}
    {db db' : MigratedDb D} {v : Int} (hv : db.storedVersion = some v) :
    exec (applyDbMigrations tablename ms) db = (.ok (), db') ↔
      (0 ≤ castInt v ∧ castInt v ≤ ms.fns.length) ∧
        ∃ contents, RunsFrom ms (castInt v).toNat db.contents contents ∧
          db' = MigratedDb.setVersion ms.fns.length
            { db.initMetaTable with contents := contents } := by
  rcases exec_applyDbMigrations tablename ms hv with ⟨hrange, e, hexec⟩ | ⟨hrange, hexec⟩
  · rw [hexec]
    refine iff_of_false (by simp) ?_
    rintro ⟨hrange', -⟩
    omega
  · rw [hexec, exec_migrateFrom_eq_ok, and_iff_right hrange]
    rfl

/-- A run that fails changes nothing, but for creating the meta table. -/
theorem exec_applyDbMigrations_eq_error {tablename : String} {ms : Migrations D}
    {db db' : MigratedDb D} {v : Int} (hv : db.storedVersion = some v) {e : MigrateFailure}
    (h : exec (applyDbMigrations tablename ms) db = (.error e, db')) : db' = db.initMetaTable := by
  rcases exec_applyDbMigrations tablename ms hv with ⟨-, e', hexec⟩ | ⟨-, hexec⟩
  · rw [hexec] at h
    exact (Prod.mk.inj h).2.symm
  · rw [hexec] at h
    exact exec_transaction_error h

/-! ## One run after another -/

theorem storedVersion_setVersion {db : MigratedDb D} {v : Int} (hv : db.storedVersion = some v)
    (contents : D) (version : Nat) :
    (MigratedDb.setVersion version { db.initMetaTable with contents := contents }).storedVersion =
      some (version : Int) := by
  obtain ⟨_, rows⟩ := db
  match rows, hv with
  | none, _ => rfl
  | some (.integer _ :: _), _ => rfl

theorem storedVersion_initMetaTable {db : MigratedDb D} {v : Int}
    (hv : db.storedVersion = some v) : db.initMetaTable.storedVersion = some v := by
  obtain ⟨_, rows⟩ := db
  match rows, hv with
  | none, rfl => rfl
  | some (.integer _ :: _), rfl => rfl

/-- Storing a version twice is storing the second one. -/
theorem setVersion_setVersion (db : MigratedDb D) (contents contents' : D) (k version : Nat) :
    MigratedDb.setVersion version
        { (MigratedDb.setVersion k { db.initMetaTable with contents := contents }).initMetaTable
          with contents := contents' } =
      MigratedDb.setVersion version { db.initMetaTable with contents := contents' } := by
  simp [MigratedDb.setVersion, MigratedDb.initMetaTable]

/-- The migrations of a prefix, and then those after it. -/
theorem runsFrom_take {ms : Migrations D} {k start : Nat} (hstart : start ≤ k)
    (hk : k ≤ ms.fns.length) {contents contents' : D} :
    RunsFrom ms start contents contents' ↔
      ∃ middle, RunsFrom (ms.take k) start contents middle ∧ RunsFrom ms k middle contents' := by
  have hsplit : ms.fns.drop start = (ms.fns.take k).drop start ++ ms.fns.drop k := by
    conv_lhs => rw [← List.take_append_drop k ms.fns]
    rw [List.drop_append_of_le_length (by rw [List.length_take]; omega)]
  unfold RunsFrom
  rw [hsplit, exec_forEach_append_eq_ok]
  rfl

/-- A prefix as long as the list is the list. -/
theorem take_eq_self {ms : Migrations D} {k : Nat} (hk : ms.fns.length ≤ k) : ms.take k = ms := by
  obtain ⟨fns, hlen⟩ := ms
  simp only [Migrations.take, List.take_of_length_le hk]

section

variable {tablename : String} {ms : Migrations D} {db db' : MigratedDb D} {v : Int}

/-- A run after a run that succeeds changes nothing. -/
theorem exec_applyDbMigrations_again (hv : db.storedVersion = some v)
    (h : exec (applyDbMigrations tablename ms) db = (.ok (), db')) :
    exec (applyDbMigrations tablename ms) db' = (.ok (), db') := by
  obtain ⟨-, contents, -, rfl⟩ := (exec_applyDbMigrations_eq_ok hv).mp h
  refine (exec_applyDbMigrations_eq_ok (storedVersion_setVersion hv contents _)).mpr ?_
  rw [castInt_length]
  refine ⟨⟨by omega, le_rfl⟩, contents, ?_, (setVersion_setVersion db _ _ _ _).symm⟩
  rw [RunsFrom, Int.toNat_natCast, List.drop_length]
  rfl

/-- A run after a run of a prefix gives what the run alone gives. -/
theorem exec_applyDbMigrations_afterPrefix (hv : db.storedVersion = some v) (k : Nat)
    (h : exec (applyDbMigrations tablename ms) db = (.ok (), db')) :
    exec (applyDbMigrations tablename ms) (exec (applyDbMigrations tablename (ms.take k)) db).2 =
      (.ok (), db') := by
  rcases Nat.lt_or_ge ms.fns.length k with hk | hk
  · rw [take_eq_self hk.le, h]
    exact exec_applyDbMigrations_again hv h
  have hlength : (ms.take k).fns.length = k := by
    rw [Migrations.take, List.length_take, min_eq_left hk]
  obtain ⟨⟨hlow, hhigh⟩, contents, hruns, rfl⟩ := (exec_applyDbMigrations_eq_ok hv).mp h
  by_cases hstart : castInt v ≤ k
  · -- the prefix is applied
    obtain ⟨middle, hbefore, hafter⟩ := (runsFrom_take (by omega) hk).mp hruns
    have hfirst : exec (applyDbMigrations tablename (ms.take k)) db = (.ok (), _) :=
      (exec_applyDbMigrations_eq_ok hv).mpr
        ⟨⟨hlow, hlength.symm ▸ hstart⟩, middle, hbefore, rfl⟩
    rw [hfirst]
    refine (exec_applyDbMigrations_eq_ok (storedVersion_setVersion hv middle _)).mpr ?_
    rw [castInt_length, hlength]
    refine ⟨⟨by omega, by omega⟩, contents, ?_, (setVersion_setVersion db _ _ _ _).symm⟩
    rwa [Int.toNat_natCast]
  · -- the database is too new for the prefix
    rcases exec_applyDbMigrations tablename (ms.take k) hv with ⟨-, e, hexec⟩ | ⟨hrange, -⟩
    · rw [hexec]
      refine (exec_applyDbMigrations_eq_ok (storedVersion_initMetaTable hv)).mpr ?_
      exact ⟨⟨hlow, hhigh⟩, contents, hruns, by simp [MigratedDb.initMetaTable]⟩
    · omega

theorem exec_applyDbMigrations_of_init (hv : db.storedVersion = some v)
    (h : exec (applyDbMigrations tablename ms) db.initMetaTable = (.ok (), db')) :
    exec (applyDbMigrations tablename ms) db = (.ok (), db') := by
  obtain ⟨hrange, contents, hruns, rfl⟩ :=
    (exec_applyDbMigrations_eq_ok (storedVersion_initMetaTable hv)).mp h
  refine (exec_applyDbMigrations_eq_ok hv).mpr ⟨hrange, contents, hruns, ?_⟩
  simp [MigratedDb.initMetaTable]

/-- A run that succeeds after a run of a prefix succeeds alone. -/
theorem exec_applyDbMigrations_of_afterPrefix (hv : db.storedVersion = some v) (k : Nat)
    (h : exec (applyDbMigrations tablename ms)
      (exec (applyDbMigrations tablename (ms.take k)) db).2 = (.ok (), db')) :
    ∃ db'', exec (applyDbMigrations tablename ms) db = (.ok (), db'') := by
  cases hfirst : exec (applyDbMigrations tablename (ms.take k)) db with
  | mk result middleDb =>
    rw [hfirst] at h
    cases result with
    | error e =>
      rw [exec_applyDbMigrations_eq_error hv hfirst] at h
      exact ⟨db', exec_applyDbMigrations_of_init hv h⟩
    | ok _ =>
      rcases Nat.lt_or_ge ms.fns.length k with hk | hk
      · rw [take_eq_self hk.le] at hfirst
        exact ⟨middleDb, hfirst⟩
      have hlength : (ms.take k).fns.length = k := by
        rw [Migrations.take, List.length_take, min_eq_left hk]
      obtain ⟨⟨hlow, hhigh⟩, middle, hbefore, rfl⟩ := (exec_applyDbMigrations_eq_ok hv).mp hfirst
      rw [exec_applyDbMigrations_eq_ok (storedVersion_setVersion hv middle _), castInt_length,
        hlength] at h
      obtain ⟨-, contents, hafter, -⟩ := h
      rw [Int.toNat_natCast] at hafter
      rw [hlength] at hhigh
      refine ⟨_, (exec_applyDbMigrations_eq_ok hv).mpr ⟨⟨hlow, by omega⟩, contents, ?_, rfl⟩⟩
      exact (runsFrom_take (by omega) hk).mpr ⟨middle, hbefore, hafter⟩

/-- When the run alone fails, so does the run after a run of a prefix, and what
the prefix did stays. -/
theorem exec_applyDbMigrations_afterPrefix_error (hv : db.storedVersion = some v) (k : Nat)
    {e : MigrateFailure} (h : exec (applyDbMigrations tablename ms) db = (.error e, db')) :
    ∃ e' db'', exec (applyDbMigrations tablename ms)
        (exec (applyDbMigrations tablename (ms.take k)) db).2 = (.error e', db'') ∧
      db''.contents = (exec (applyDbMigrations tablename (ms.take k)) db).2.contents := by
  cases hrun : exec (applyDbMigrations tablename ms)
      (exec (applyDbMigrations tablename (ms.take k)) db).2 with
  | mk result db'' =>
    cases result with
    | ok _ =>
      obtain ⟨_, hok⟩ := exec_applyDbMigrations_of_afterPrefix hv k hrun
      rw [h] at hok
      cases hok
    | error e' =>
      obtain ⟨v', hv'⟩ : ∃ v', (exec (applyDbMigrations tablename (ms.take k)) db).2.storedVersion =
          some v' := by
        cases hfirst : exec (applyDbMigrations tablename (ms.take k)) db with
        | mk result' middleDb =>
          cases result' with
          | error _ =>
            exact ⟨v, exec_applyDbMigrations_eq_error hv hfirst ▸ storedVersion_initMetaTable hv⟩
          | ok _ =>
            obtain ⟨-, middle, -, rfl⟩ := (exec_applyDbMigrations_eq_ok hv).mp hfirst
            exact ⟨_, storedVersion_setVersion hv middle _⟩
      exact ⟨e', db'', rfl, by rw [exec_applyDbMigrations_eq_error hv' hrun]; rfl⟩

end

/-! ## Migrating once -/

/-- What a run promises for a database that holds a version. -/
structure MigratesOnce (tablename : String) (ms : Migrations D) (db : MigratedDb D) (v : Int) :
    Prop where
  succeeds_iff : (∃ db', exec (applyDbMigrations tablename ms) db = (.ok (), db')) ↔
    0 ≤ v ∧ v ≤ ms.fns.length ∧ ∃ contents, RunsFrom ms v.toNat db.contents contents
  applied : ∀ db', exec (applyDbMigrations tablename ms) db = (.ok (), db') →
    RunsFrom ms v.toNat db.contents db'.contents ∧ db'.storedVersion = some ms.fns.length
  again : ∀ db', exec (applyDbMigrations tablename ms) db = (.ok (), db') →
    exec (applyDbMigrations tablename ms) db' = (.ok (), db')
  afterPrefix : ∀ k db', exec (applyDbMigrations tablename ms) db = (.ok (), db') →
    exec (applyDbMigrations tablename ms) (exec (applyDbMigrations tablename (ms.take k)) db).2 =
      (.ok (), db')
  unchanged : ∀ e db', exec (applyDbMigrations tablename ms) db = (.error e, db') →
    db' = db.initMetaTable

/-- A run keeps its promise exactly when the version that it reads is the stored
one, or lets it fail anyway: out of range, or before a migration that fails. -/
theorem migratesOnce_iff (tablename : String) (ms : Migrations D) (db : MigratedDb D) (v : Int)
    (hv : db.storedVersion = some v) :
    MigratesOnce tablename ms db v ↔
      castInt v = v ∨ castInt v < 0 ∨ (ms.fns.length : Int) < castInt v ∨
        ∀ contents, ¬ RunsFrom ms (castInt v).toNat db.contents contents := by
  constructor
  · intro h
    by_contra hcond
    simp only [not_or, not_lt, not_forall, not_not] at hcond
    obtain ⟨hcast, hlow, hhigh, contents, hruns⟩ := hcond
    have hok : exec (applyDbMigrations tablename ms) db = (.ok (), _) :=
      (exec_applyDbMigrations_eq_ok hv).mpr ⟨⟨hlow, hhigh⟩, contents, hruns, rfl⟩
    obtain ⟨hlow', hhigh', -⟩ := h.succeeds_iff.mp ⟨_, hok⟩
    -- a version in range is read as it is
    have hlen := ms.size_lt
    exact hcast (castInt_eq hlow' (by omega))
  · intro hcond
    have hok : ∀ db', exec (applyDbMigrations tablename ms) db = (.ok (), db') ↔
        (0 ≤ v ∧ v ≤ ms.fns.length) ∧ ∃ contents, RunsFrom ms v.toNat db.contents contents ∧
          db' = MigratedDb.setVersion ms.fns.length
            { db.initMetaTable with contents := contents } := by
      intro db'
      rw [exec_applyDbMigrations_eq_ok hv]
      rcases hcond with hcast | hcond
      · rw [hcast]
      · have hlen := ms.size_lt
        constructor
        · rintro ⟨⟨hlow, hhigh⟩, contents, hruns, -⟩
          rcases hcond with hcond | hcond | hcond
          · omega
          · omega
          · exact absurd hruns (hcond contents)
        · rintro ⟨⟨hlow, hhigh⟩, contents, hruns, hdb'⟩
          rw [castInt_eq hlow (by omega)]
          exact ⟨⟨hlow, hhigh⟩, contents, hruns, hdb'⟩
    refine ⟨?_, fun db' h => ?_, fun db' h => exec_applyDbMigrations_again hv h,
      fun k db' h => exec_applyDbMigrations_afterPrefix hv k h,
      fun e db' h => exec_applyDbMigrations_eq_error hv h⟩
    · constructor
      · rintro ⟨db', h⟩
        obtain ⟨⟨hlow, hhigh⟩, contents, hruns, -⟩ := (hok db').mp h
        exact ⟨hlow, hhigh, contents, hruns⟩
      · rintro ⟨hlow, hhigh, contents, hruns⟩
        exact ⟨_, (hok _).mpr ⟨⟨hlow, hhigh⟩, contents, hruns, rfl⟩⟩
    · obtain ⟨-, contents, hruns, rfl⟩ := (hok db').mp h
      exact ⟨hruns, storedVersion_setVersion hv contents _⟩

/-! ### A database that counts its migrations -/

/-- One migration. -/
def countMigration : Migrations Nat where
  fns := [modify (· + 1)]
  size_lt := by decide

theorem migratesOnce_iff_count : MigratesOnce "meta" countMigration ⟨0, none⟩ 0 :=
  (migratesOnce_iff "meta" countMigration ⟨0, none⟩ 0 rfl).mpr (.inl rfl)

/-- A version of 2³² is read as 0, and the migration is applied. -/
theorem not_migratesOnce :
    let db : MigratedDb Nat := ⟨5, some [.integer (2 ^ 32)]⟩
    db.storedVersion = some (2 ^ 32) ∧ ¬ MigratesOnce "meta" countMigration db (2 ^ 32) := by
  refine ⟨rfl, fun h => ?_⟩
  have hok : exec (applyDbMigrations "meta" countMigration) ⟨5, some [.integer (2 ^ 32)]⟩ =
      (.ok (), ⟨6, some [.integer 1]⟩) := rfl
  exact absurd (h.succeeds_iff.mp ⟨_, hok⟩).2.1 (by decide)

end Bpt
