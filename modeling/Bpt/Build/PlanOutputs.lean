-- SUMMARY: When the steps of a build plan write each file once: the exact condition on the source trees.
import Mathlib.Data.List.Nodup
import Mathlib.Data.List.Pairwise
import Mathlib.Data.List.Perm.Basic
import Bpt.Build.PlanFiles

/-!
# Outputs written once

The steps of a plan run side by side, so a file that two steps write holds what
either of them left there. Inside one library this takes two source files of one
name. Between libraries it takes the path of one to lead into the other, since
each library writes only below the directory that its path leads to.
-/

namespace Bpt.Plan

open Fallible

variable {V S : Type}

/-- No two compilations write one object, no two links write one executable, and
no object is where an archive or an executable is written. -/
structure WritesOnce (tree : FileTree) (env : BuildEnv) (plan : BuildPlan) : Prop where
  objects : (plan.compilations.map fun c => tree.fileAt (c.calcObjectFilePath tree env)).Nodup
  executables : (plan.executables.map fun exe => tree.fileAt (exe.calcExecutablePath env)).Nodup
  apart : ∀ c ∈ plan.compilations,
    (∀ exe ∈ plan.executables,
      tree.fileAt (c.calcObjectFilePath tree env) ≠ tree.fileAt (exe.calcExecutablePath env)) ∧
    ∀ ar ∈ plan.archives, tree.fileAt (c.calcObjectFilePath tree env) ≠
      tree.fileAt (env.outputRoot / ar.calcArchiveFilePath env.toolchain)

theorem writesOnce_and {tree : FileTree} {env : BuildEnv} {plan : BuildPlan} :
    WritesOnce tree env plan ↔
      (plan.compilations.map fun c => tree.fileAt (c.calcObjectFilePath tree env)).Nodup ∧
      (plan.executables.map fun exe => tree.fileAt (exe.calcExecutablePath env)).Nodup ∧
      ∀ c ∈ plan.compilations,
        (∀ exe ∈ plan.executables,
          tree.fileAt (c.calcObjectFilePath tree env) ≠ tree.fileAt (exe.calcExecutablePath env)) ∧
        ∀ ar ∈ plan.archives, tree.fileAt (c.calcObjectFilePath tree env) ≠
          tree.fileAt (env.outputRoot / ar.calcArchiveFilePath env.toolchain) := by
  constructor
  · intro h
    exact ⟨h.objects, h.executables, h.apart⟩
  · rintro ⟨hobjects, hexecutables, hapart⟩
    exact ⟨hobjects, hexecutables, hapart⟩

instance {tree : FileTree} {env : BuildEnv} {plan : BuildPlan} :
    Decidable (WritesOnce tree env plan) :=
  decidable_of_iff _ writesOnce_and.symm

/-! ## The condition on the source trees -/

/-- The path of the library `inner` leads on from that of `outer` by the names
`sub`. Nothing of `outer` goes there under a name that `inner` uses. -/
structure Clear (tc : Toolchain) (outer inner : LibraryFiles) (sub : List String) : Prop where
  objects : ∀ c ∈ outer.compiled, ∀ c' ∈ inner.compiled,
    ¬ (c.within = sub ++ c'.within ∧ leaf c.file = leaf c'.file)
  executables : ∀ e ∈ outer.entries, ∀ e' ∈ inner.entries,
    ¬ (e.within = sub ++ e'.within ∧ e.name = e'.name)
  executableOverObject : ∀ e ∈ outer.entries, ∀ c ∈ inner.compiled,
    ¬ (e.within = sub ++ c.within ∧ e.name ++ tc.executableSuffix = leaf c.file ++ tc.objectSuffix)
  objectOverExecutable : ∀ c ∈ outer.compiled, ∀ e ∈ inner.entries,
    ¬ (c.within = sub ++ e.within ∧ leaf c.file ++ tc.objectSuffix = e.name ++ tc.executableSuffix)
  objectOverArchive : inner.sources ≠ [] → ∀ c ∈ outer.compiled,
    ¬ (c.within = sub ∧ leaf c.file ++ tc.objectSuffix = "lib" ++ inner.name ++ tc.archiveSuffix)

/-- What the source trees of the libraries must be free of. -/
structure OutputsApart (tc : Toolchain) (libs : List LibraryFiles) : Prop where
  /-- No header that is checked lies in `src` as another lies in `include`. -/
  headers : ∀ lib ∈ libs, ∀ file ∈ lib.headers, file ∉ lib.publicHeaders
  /-- No two apps of a directory have one name, such as `a.main.c` and `a.main.cpp`. -/
  apps : ∀ lib ∈ libs, lib.apps.Pairwise fun a b =>
    ¬ (a.dropLast = b.dropLast ∧ mainName a = mainName b)
  tests : ∀ lib ∈ libs, lib.tests.Pairwise fun a b =>
    ¬ (a.dropLast = b.dropLast ∧ mainName a = mainName b)
  /-- No app in the directory `test` has the place and the name of a test. -/
  appsAndTests : ∀ lib ∈ libs, ∀ app ∈ lib.apps, ∀ test ∈ lib.tests,
    ¬ (app.dropLast = "test" :: test.dropLast ∧ mainName app = mainName test)
  /-- No app in the directory `obj` or `timestamps` is called like an object there. -/
  appsAndObjects : ∀ lib ∈ libs, ∀ app ∈ lib.apps, ∀ c ∈ lib.compiled,
    ¬ (app.dropLast = c.within ∧
      mainName app ++ tc.executableSuffix = leaf c.file ++ tc.objectSuffix)
  /-- Where a library is built below another one, the outer one leaves room for it. -/
  nested : libs.Pairwise fun a b =>
    (∀ sub, b.dir = a.dir ++ sub → Clear tc a b sub) ∧
      ∀ sub, a.dir = b.dir ++ sub → Clear tc b a sub

/-! ## Files below two directories -/

/-- A file in two directories: one of them leads on to the other. -/
theorem pair_append_eq_iff {d d' u u' : List String} {n n' : String} :
    (d ++ u, n) = (d' ++ u', n') ↔
      (∃ sub, d' = d ++ sub ∧ u = sub ++ u' ∧ n = n') ∨
        ∃ sub, d = d' ++ sub ∧ u' = sub ++ u ∧ n' = n := by
  rw [Prod.mk.injEq, List.append_eq_append_iff]
  constructor
  · rintro ⟨⟨sub, rfl, hu⟩ | ⟨sub, rfl, hu⟩, rfl⟩
    · exact .inl ⟨sub, rfl, hu, rfl⟩
    · exact .inr ⟨sub, rfl, hu, rfl⟩
  · rintro (⟨sub, rfl, hu, rfl⟩ | ⟨sub, rfl, hu, rfl⟩)
    · exact ⟨.inl ⟨sub, rfl, hu⟩, rfl⟩
    · exact ⟨.inr ⟨sub, rfl, hu⟩, rfl⟩

/-- Files below two directories differ when neither directory leads to where the
other one's files are. -/
theorem forall_file_ne_iff {α β : Type} {d d' : List String} {xs : List α} {ys : List β}
    {u : α → List String} {v : β → List String} {n : α → String} {m : β → String} :
    (∀ x ∈ xs, ∀ y ∈ ys, (d ++ u x, n x) ≠ (d' ++ v y, m y)) ↔
      (∀ sub, d' = d ++ sub → ∀ x ∈ xs, ∀ y ∈ ys, ¬ (u x = sub ++ v y ∧ n x = m y)) ∧
        ∀ sub, d = d' ++ sub → ∀ y ∈ ys, ∀ x ∈ xs, ¬ (v y = sub ++ u x ∧ m y = n x) := by
  simp only [Ne, pair_append_eq_iff]
  constructor
  · intro h
    refine ⟨fun sub hd x hx y hy => ?_, fun sub hd y hy x hx => ?_⟩
    · rintro ⟨hu, hn⟩
      exact h x hx y hy (.inl ⟨sub, hd, hu, hn⟩)
    · rintro ⟨hu, hn⟩
      exact h x hx y hy (.inr ⟨sub, hd, hu, hn⟩)
  · rintro ⟨hl, hr⟩ x hx y hy (⟨sub, hd, hu, hn⟩ | ⟨sub, hd, hu, hn⟩)
    · exact hl sub hd x hx y hy ⟨hu, hn⟩
    · exact hr sub hd y hy x hx ⟨hu, hn⟩

/-! ## Two libraries -/

/-- No file of one library is a file of the other one. -/
structure PairApart (tc : Toolchain) (a b : LibraryFiles) : Prop where
  objects : ∀ c ∈ a.compiled, ∀ c' ∈ b.compiled, a.objectFile tc c ≠ b.objectFile tc c'
  executables : ∀ e ∈ a.entries, ∀ e' ∈ b.entries, a.executableFile tc e ≠ b.executableFile tc e'
  objectExecutable : ∀ c ∈ a.compiled, ∀ e ∈ b.entries, a.objectFile tc c ≠ b.executableFile tc e
  executableObject : ∀ e ∈ a.entries, ∀ c ∈ b.compiled, a.executableFile tc e ≠ b.objectFile tc c
  objectArchive : ∀ c ∈ a.compiled, b.archiveFile tc ≠ some (a.objectFile tc c)
  archiveObject : ∀ c ∈ b.compiled, a.archiveFile tc ≠ some (b.objectFile tc c)

theorem archive_ne_object_iff {tc : Toolchain} {a b : LibraryFiles} :
    (∀ c ∈ a.compiled, b.archiveFile tc ≠ some (a.objectFile tc c)) ↔
      ∀ sub, b.dir = a.dir ++ sub → b.sources ≠ [] → ∀ c ∈ a.compiled,
        ¬ (c.within = sub ∧
          leaf c.file ++ tc.objectSuffix = "lib" ++ b.name ++ tc.archiveSuffix) := by
  unfold LibraryFiles.archiveFile LibraryFiles.objectFile
  constructor
  · rintro h sub hdir hsources c hc ⟨hwithin, hname⟩
    apply h c hc
    rw [if_neg hsources, hdir, hwithin, hname]
  · intro h c hc heq
    split at heq
    · cases heq
    next hsources =>
      obtain ⟨hdir, hname⟩ := Prod.mk.inj (Option.some.inj heq)
      exact h c.within hdir hsources c hc ⟨rfl, hname.symm⟩

theorem object_ne_object_iff {tc : Toolchain} {a b : LibraryFiles} :
    (∀ c ∈ a.compiled, ∀ c' ∈ b.compiled, a.objectFile tc c ≠ b.objectFile tc c') ↔
      (∀ sub, b.dir = a.dir ++ sub → ∀ c ∈ a.compiled, ∀ c' ∈ b.compiled,
        ¬ (c.within = sub ++ c'.within ∧ leaf c.file = leaf c'.file)) ∧
      ∀ sub, a.dir = b.dir ++ sub → ∀ c' ∈ b.compiled, ∀ c ∈ a.compiled,
        ¬ (c'.within = sub ++ c.within ∧ leaf c'.file = leaf c.file) := by
  unfold LibraryFiles.objectFile
  rw [forall_file_ne_iff]
  simp only [String.append_left_inj]

theorem executable_ne_executable_iff {tc : Toolchain} {a b : LibraryFiles} :
    (∀ e ∈ a.entries, ∀ e' ∈ b.entries, a.executableFile tc e ≠ b.executableFile tc e') ↔
      (∀ sub, b.dir = a.dir ++ sub → ∀ e ∈ a.entries, ∀ e' ∈ b.entries,
        ¬ (e.within = sub ++ e'.within ∧ e.name = e'.name)) ∧
      ∀ sub, a.dir = b.dir ++ sub → ∀ e' ∈ b.entries, ∀ e ∈ a.entries,
        ¬ (e'.within = sub ++ e.within ∧ e'.name = e.name) := by
  unfold LibraryFiles.executableFile
  rw [forall_file_ne_iff]
  simp only [String.append_left_inj]

theorem object_ne_executable_iff {tc : Toolchain} {a b : LibraryFiles} :
    (∀ c ∈ a.compiled, ∀ e ∈ b.entries, a.objectFile tc c ≠ b.executableFile tc e) ↔
      (∀ sub, b.dir = a.dir ++ sub → ∀ c ∈ a.compiled, ∀ e ∈ b.entries,
        ¬ (c.within = sub ++ e.within ∧
          leaf c.file ++ tc.objectSuffix = e.name ++ tc.executableSuffix)) ∧
      ∀ sub, a.dir = b.dir ++ sub → ∀ e ∈ b.entries, ∀ c ∈ a.compiled,
        ¬ (e.within = sub ++ c.within ∧
          e.name ++ tc.executableSuffix = leaf c.file ++ tc.objectSuffix) := by
  unfold LibraryFiles.objectFile LibraryFiles.executableFile
  exact forall_file_ne_iff

theorem executable_ne_object_iff {tc : Toolchain} {a b : LibraryFiles} :
    (∀ e ∈ a.entries, ∀ c ∈ b.compiled, a.executableFile tc e ≠ b.objectFile tc c) ↔
      (∀ sub, b.dir = a.dir ++ sub → ∀ e ∈ a.entries, ∀ c ∈ b.compiled,
        ¬ (e.within = sub ++ c.within ∧
          e.name ++ tc.executableSuffix = leaf c.file ++ tc.objectSuffix)) ∧
      ∀ sub, a.dir = b.dir ++ sub → ∀ c ∈ b.compiled, ∀ e ∈ a.entries,
        ¬ (c.within = sub ++ e.within ∧
          leaf c.file ++ tc.objectSuffix = e.name ++ tc.executableSuffix) := by
  unfold LibraryFiles.objectFile LibraryFiles.executableFile
  exact forall_file_ne_iff

theorem pairApart_iff {tc : Toolchain} {a b : LibraryFiles} :
    PairApart tc a b ↔
      (∀ sub, b.dir = a.dir ++ sub → Clear tc a b sub) ∧
        ∀ sub, a.dir = b.dir ++ sub → Clear tc b a sub := by
  constructor
  · intro h
    have hobjects := object_ne_object_iff.1 h.objects
    have hexecutables := executable_ne_executable_iff.1 h.executables
    have hobjectExecutable := object_ne_executable_iff.1 h.objectExecutable
    have hexecutableObject := executable_ne_object_iff.1 h.executableObject
    exact ⟨fun sub hdir =>
      { objects := hobjects.1 sub hdir
        executables := hexecutables.1 sub hdir
        executableOverObject := hexecutableObject.1 sub hdir
        objectOverExecutable := hobjectExecutable.1 sub hdir
        objectOverArchive := archive_ne_object_iff.1 h.objectArchive sub hdir },
      fun sub hdir =>
      { objects := hobjects.2 sub hdir
        executables := hexecutables.2 sub hdir
        executableOverObject := hobjectExecutable.2 sub hdir
        objectOverExecutable := hexecutableObject.2 sub hdir
        objectOverArchive := archive_ne_object_iff.1 h.archiveObject sub hdir }⟩
  · rintro ⟨hab, hba⟩
    exact
      { objects := object_ne_object_iff.2
          ⟨fun sub hdir => (hab sub hdir).objects, fun sub hdir => (hba sub hdir).objects⟩
        executables := executable_ne_executable_iff.2
          ⟨fun sub hdir => (hab sub hdir).executables, fun sub hdir => (hba sub hdir).executables⟩
        objectExecutable := object_ne_executable_iff.2
          ⟨fun sub hdir => (hab sub hdir).objectOverExecutable,
            fun sub hdir => (hba sub hdir).executableOverObject⟩
        executableObject := executable_ne_object_iff.2
          ⟨fun sub hdir => (hab sub hdir).executableOverObject,
            fun sub hdir => (hba sub hdir).objectOverExecutable⟩
        objectArchive := archive_ne_object_iff.2 fun sub hdir => (hab sub hdir).objectOverArchive
        archiveObject := archive_ne_object_iff.2 fun sub hdir => (hba sub hdir).objectOverArchive }

/-! ## One library -/

/-- The lists of files are those of a tree: each file is there once. -/
structure Collected (lib : LibraryFiles) : Prop where
  isSource : ∀ c ∈ lib.compiled, IsSource c.file
  objects : (lib.sources ++ (lib.apps ++ lib.tests)).Nodup
  headers : lib.headers.Nodup
  publicHeaders : lib.publicHeaders.Nodup

/-- No file of a library is written twice. -/
structure SelfApart (tc : Toolchain) (lib : LibraryFiles) : Prop where
  objects : (lib.compiled.map (lib.objectFile tc)).Nodup
  executables : (lib.entries.map (lib.executableFile tc)).Nodup
  objectExecutable : ∀ c ∈ lib.compiled, ∀ e ∈ lib.entries,
    lib.objectFile tc c ≠ lib.executableFile tc e

theorem mem_compiled {lib : LibraryFiles} {c : Compiled} :
    c ∈ lib.compiled ↔
      c.folder = "obj" ∧ c.file ∈ lib.sources ++ (lib.apps ++ lib.tests) ∨
        c.folder = "timestamps" ∧ c.file ∈ lib.headers ++ lib.publicHeaders := by
  obtain ⟨folder, file⟩ := c
  simp only [LibraryFiles.compiled, List.mem_append, List.mem_map, Compiled.mk.injEq]
  grind

/-- Each compilation of a library has an object of its own. -/
theorem objectFile_inj {tc : Toolchain} {lib : LibraryFiles} {c c' : Compiled}
    (hc : IsSource c.file) (hc' : IsSource c'.file)
    (h : lib.objectFile tc c = lib.objectFile tc c') : c = c' := by
  obtain ⟨hwithin, hname⟩ := Prod.mk.inj h
  obtain ⟨hfolder, hdirs⟩ := List.cons.inj (List.append_cancel_left hwithin)
  have hleaf := (String.append_left_inj _).1 hname
  have hfile : c.file = c'.file := by rw [hc.split, hc'.split, hdirs, hleaf]
  cases c
  cases c'
  simp_all

theorem nodup_objects_iff {tc : Toolchain} {lib : LibraryFiles} (hlib : Collected lib) :
    (lib.compiled.map (lib.objectFile tc)).Nodup ↔
      ∀ file ∈ lib.headers, file ∉ lib.publicHeaders := by
  have hinj : (lib.compiled.map (lib.objectFile tc)).Nodup ↔ lib.compiled.Nodup :=
    ⟨List.Nodup.of_map _, fun h => h.map_on fun c hc c' hc' heq =>
      objectFile_inj (hlib.isSource c hc) (hlib.isSource c' hc') heq⟩
  have hperm : lib.compiled.Perm
      ((lib.sources ++ (lib.apps ++ lib.tests)).map (⟨"obj", ·⟩) ++
        (lib.headers ++ lib.publicHeaders).map (⟨"timestamps", ·⟩)) := by
    have hobj : (lib.sources ++ (lib.apps ++ lib.tests)).map (fun file => (⟨"obj", file⟩ : Compiled)) =
        lib.sources.map (⟨"obj", ·⟩) ++ (lib.apps ++ lib.tests).map (⟨"obj", ·⟩) := List.map_append
    unfold LibraryFiles.compiled
    rw [hobj, List.append_assoc, List.append_assoc]
    exact List.perm_append_comm.append_left _
  have hmap : ∀ folder, Function.Injective fun file => (⟨folder, file⟩ : Compiled) :=
    fun _ _ _ heq => (Compiled.mk.inj heq).2
  have hheaders : (lib.headers ++ lib.publicHeaders).Nodup ↔
      ∀ file ∈ lib.headers, file ∉ lib.publicHeaders := by
    rw [List.nodup_append]
    constructor
    · rintro ⟨_, _, hne⟩ file hfile hpublic
      exact hne file hfile file hpublic rfl
    · intro h
      refine ⟨hlib.headers, hlib.publicHeaders, ?_⟩
      rintro file hfile _ hpublic rfl
      exact h file hfile hpublic
  rw [hinj, hperm.nodup_iff, List.nodup_append, List.nodup_map_iff (hmap _),
    List.nodup_map_iff (hmap _), hheaders]
  constructor
  · exact fun h => h.2.1
  · intro h
    refine ⟨hlib.objects, h, ?_⟩
    intro c hc c' hc' heq
    obtain ⟨_, _, rfl⟩ := List.mem_map.1 hc
    obtain ⟨_, _, rfl⟩ := List.mem_map.1 hc'
    exact absurd (Compiled.mk.inj heq).1 (by decide)

theorem nodup_executables_iff {tc : Toolchain} {lib : LibraryFiles} :
    (lib.entries.map (lib.executableFile tc)).Nodup ↔
      (lib.apps.Pairwise fun a b => ¬ (a.dropLast = b.dropLast ∧ mainName a = mainName b)) ∧
      (lib.tests.Pairwise fun a b => ¬ (a.dropLast = b.dropLast ∧ mainName a = mainName b)) ∧
      ∀ app ∈ lib.apps, ∀ test ∈ lib.tests,
        ¬ (app.dropLast = "test" :: test.dropLast ∧ mainName app = mainName test) := by
  have hfile : ∀ e e' : Entry, lib.executableFile tc e = lib.executableFile tc e' ↔
      e.within = e'.within ∧ e.name = e'.name := by
    intro e e'
    unfold LibraryFiles.executableFile
    rw [Prod.mk.injEq, List.append_cancel_left_eq, String.append_left_inj]
  unfold LibraryFiles.entries List.Nodup
  simp only [List.map_append, List.pairwise_append, List.pairwise_map, List.forall_mem_map, Ne,
    hfile, LibraryFiles.appEntry, LibraryFiles.testEntry, List.cons.injEq, true_and]

theorem object_ne_own_executable_iff {tc : Toolchain} {lib : LibraryFiles} :
    (∀ c ∈ lib.compiled, ∀ e ∈ lib.entries, lib.objectFile tc c ≠ lib.executableFile tc e) ↔
      ∀ app ∈ lib.apps, ∀ c ∈ lib.compiled,
        ¬ (app.dropLast = c.within ∧
          mainName app ++ tc.executableSuffix = leaf c.file ++ tc.objectSuffix) := by
  have hfile : ∀ (c : Compiled) (e : Entry), lib.objectFile tc c = lib.executableFile tc e ↔
      e.within = c.within ∧ e.name ++ tc.executableSuffix = leaf c.file ++ tc.objectSuffix := by
    intro c e
    unfold LibraryFiles.executableFile LibraryFiles.objectFile
    rw [Prod.mk.injEq, List.append_cancel_left_eq, eq_comm, @eq_comm String]
  simp only [Ne, hfile, LibraryFiles.entries, List.mem_append, List.mem_map]
  constructor
  · intro h app happ c hc
    exact h c hc _ (.inl ⟨app, happ, rfl⟩)
  · rintro h c hc _ (⟨app, happ, rfl⟩ | ⟨test, _, rfl⟩)
    · exact h app happ c hc
    · -- Tests have a directory of their own.
      rintro ⟨hwithin, _⟩
      have hfolder : "test" = c.folder := (List.cons.inj hwithin).1
      rcases mem_compiled.1 hc with ⟨hobj, _⟩ | ⟨hts, _⟩
      · exact absurd (hfolder.trans hobj) (by decide)
      · exact absurd (hfolder.trans hts) (by decide)

/-! ## All libraries -/

theorem forall_pairs_iff {α : Type} {R : α → α → Prop} {xs : List α} :
    (∀ a ∈ xs, ∀ b ∈ xs, R a b) ↔
      (∀ a ∈ xs, R a a) ∧ xs.Pairwise fun a b => R a b ∧ R b a := by
  constructor
  · intro h
    exact ⟨fun a ha => h a ha a ha,
      List.pairwise_of_forall_mem_list fun a ha b hb => ⟨h a ha b hb, h b hb a ha⟩⟩
  · rintro ⟨hself, hpairs⟩ a ha b hb
    exact List.Pairwise.forall_of_forall_of_flip hself (hpairs.imp fun h => h.1)
      (hpairs.imp fun h => h.2) ha hb

/-- No file of the libraries is written twice. -/
structure FilesOnce (tc : Toolchain) (libs : List LibraryFiles) : Prop where
  objects : (libs.flatMap fun lib => lib.compiled.map (lib.objectFile tc)).Nodup
  executables : (libs.flatMap fun lib => lib.entries.map (lib.executableFile tc)).Nodup
  apart : ∀ a ∈ libs, ∀ b ∈ libs,
    (∀ c ∈ a.compiled, ∀ e ∈ b.entries, a.objectFile tc c ≠ b.executableFile tc e) ∧
      ∀ c ∈ a.compiled, b.archiveFile tc ≠ some (a.objectFile tc c)

theorem nodup_flatMap_map_iff {α β γ : Type} {xs : List α} {items : α → List β}
    {file : α → β → γ} :
    (xs.flatMap fun x => (items x).map (file x)).Nodup ↔
      (∀ x ∈ xs, ((items x).map (file x)).Nodup) ∧
        xs.Pairwise fun a b => ∀ i ∈ items a, ∀ j ∈ items b, file a i ≠ file b j := by
  have hpair : ∀ a b, List.Disjoint ((items a).map (file a)) ((items b).map (file b)) ↔
      ∀ i ∈ items a, ∀ j ∈ items b, file a i ≠ file b j := by
    intro a b
    simp only [List.disjoint_iff_ne, List.forall_mem_map]
  rw [List.nodup_flatMap]
  exact and_congr_right fun _ => List.Pairwise.iff fun {a b} => hpair a b

/-- An archive is never in the directory of an object of the same library. -/
theorem archive_ne_own_object {tc : Toolchain} {lib : LibraryFiles} :
    ∀ c ∈ lib.compiled, lib.archiveFile tc ≠ some (lib.objectFile tc c) := by
  apply archive_ne_object_iff.2
  rintro sub hdir _ c _ ⟨rfl, _⟩
  have hnil : c.within = [] := List.self_eq_append_right.1 hdir
  cases hnil

theorem filesOnce_iff_apart {tc : Toolchain} {libs : List LibraryFiles} :
    FilesOnce tc libs ↔ (∀ lib ∈ libs, SelfApart tc lib) ∧ libs.Pairwise (PairApart tc) := by
  constructor
  · rintro ⟨hobjects, hexecutables, hapart⟩
    obtain ⟨hobject, hobjectPairs⟩ := nodup_flatMap_map_iff.1 hobjects
    obtain ⟨hexecutable, hexecutablePairs⟩ := nodup_flatMap_map_iff.1 hexecutables
    obtain ⟨hself, hpairs⟩ := forall_pairs_iff.1 hapart
    refine ⟨fun lib hlib => ⟨hobject lib hlib, hexecutable lib hlib, (hself lib hlib).1⟩, ?_⟩
    apply (hobjectPairs.and (hexecutablePairs.and hpairs)).imp
    rintro a b ⟨hobject, hexecutable, hab, hba⟩
    exact
      { objects := hobject
        executables := hexecutable
        objectExecutable := hab.1
        executableObject := fun e he c hc heq => hba.1 c hc e he heq.symm
        objectArchive := hab.2
        archiveObject := hba.2 }
  · rintro ⟨hself, hpairs⟩
    refine ⟨?_, ?_, ?_⟩
    · exact nodup_flatMap_map_iff.2
        ⟨fun lib hlib => (hself lib hlib).objects, hpairs.imp fun h => h.objects⟩
    · exact nodup_flatMap_map_iff.2
        ⟨fun lib hlib => (hself lib hlib).executables, hpairs.imp fun h => h.executables⟩
    · refine forall_pairs_iff.2 ⟨fun lib hlib => ⟨(hself lib hlib).objectExecutable, archive_ne_own_object⟩, ?_⟩
      apply hpairs.imp
      intro a b h
      exact ⟨⟨h.objectExecutable, h.objectArchive⟩,
        fun c hc e he heq => h.executableObject e he c hc heq.symm, h.archiveObject⟩

theorem filesOnce_iff {tc : Toolchain} {libs : List LibraryFiles}
    (hlibs : ∀ lib ∈ libs, Collected lib) : FilesOnce tc libs ↔ OutputsApart tc libs := by
  rw [filesOnce_iff_apart]
  constructor
  · rintro ⟨hself, hpairs⟩
    have hexecutables := fun lib hlib => nodup_executables_iff.1 (hself lib hlib).executables
    exact
      { headers := fun lib hlib => (nodup_objects_iff (hlibs lib hlib)).1 (hself lib hlib).objects
        apps := fun lib hlib => (hexecutables lib hlib).1
        tests := fun lib hlib => (hexecutables lib hlib).2.1
        appsAndTests := fun lib hlib => (hexecutables lib hlib).2.2
        appsAndObjects := fun lib hlib =>
          object_ne_own_executable_iff.1 (hself lib hlib).objectExecutable
        nested := hpairs.imp fun h => pairApart_iff.1 h }
  · intro h
    refine ⟨fun lib hlib => ?_, h.nested.imp fun h => pairApart_iff.2 h⟩
    exact
      { objects := (nodup_objects_iff (hlibs lib hlib)).2 (h.headers lib hlib)
        executables := nodup_executables_iff.2
          ⟨h.apps lib hlib, h.tests lib hlib, h.appsAndTests lib hlib⟩
        objectExecutable := object_ne_own_executable_iff.2 (h.appsAndObjects lib hlib) }

/-! ## The plan -/

theorem ne_of_mem_filesOf {tree : FileTree} {dir : Path} {kind kind' : SourceKind}
    (hne : kind ≠ kind') : ∀ a ∈ filesOf tree dir kind, ∀ b ∈ filesOf tree dir kind', a ≠ b := by
  rintro a ha _ hb rfl
  have hkind := (List.mem_filter.1 ha).2
  have hkind' := (List.mem_filter.1 hb).2
  simp only [decide_eq_true_eq] at hkind hkind'
  exact hne (Option.some.inj (hkind.symm.trans hkind'))

theorem nodup_filesOf (tree : FileTree) (dir : Path) (kind : SourceKind) :
    (filesOf tree dir kind).Nodup :=
  (tree.nodup_below _).filter _

theorem ite_sublist {α : Type} (c : Bool) (xs : List α) : (if c then xs else []).Sublist xs := by
  cases c with
  | true => exact List.Sublist.refl xs
  | false => exact List.nil_sublist xs

theorem collected_libraryFiles (tree : FileTree) (env : BuildEnv) (sdt : SdistTarget V S)
    (lib : Crs.LibraryInfo S) : Collected (libraryFiles tree env sdt lib) := by
  refine ⟨?_, ?_, ?_, ?_⟩
  · intro c hc
    rcases mem_compiled.1 hc with ⟨_, hfile⟩ | ⟨_, hfile⟩
    · rcases List.mem_append.1 hfile with hfile | hfile
      · exact isSource_of_mem_filesOf hfile
      · rcases List.mem_append.1 hfile with hfile | hfile <;> exact mem_filesOf_ite hfile
    · rcases List.mem_append.1 hfile with hfile | hfile <;> exact mem_filesOf_ite hfile
  · have hall := fun dir => List.nodup_append.2
      ⟨nodup_filesOf tree dir .source, List.nodup_append.2
        ⟨nodup_filesOf tree dir .app, nodup_filesOf tree dir .test, ne_of_mem_filesOf (by decide)⟩,
        fun a ha b hb => (List.mem_append.1 hb).elim
          (ne_of_mem_filesOf (by decide) a ha b) (ne_of_mem_filesOf (by decide) a ha b)⟩
    exact (hall _).sublist
      ((List.Sublist.refl _).append ((ite_sublist _ _).append (ite_sublist _ _)))
  · exact (nodup_filesOf tree _ _).sublist (ite_sublist _ _)
  · exact (nodup_filesOf tree _ _).sublist (ite_sublist _ _)

theorem forall₂_flatMap {α β γ δ : Type} {R : α → β → Prop} {Q : γ → δ → Prop} {as : List α}
    {bs : List β} {f : α → List γ} {g : β → List δ} (h : List.Forall₂ R as bs)
    (hfg : ∀ a b, R a b → List.Forall₂ Q (f a) (g b)) :
    List.Forall₂ Q (as.flatMap f) (bs.flatMap g) := by
  induction h with
  | nil => exact .nil
  | cons hab _ ih =>
    rw [List.flatMap_cons, List.flatMap_cons]
    exact List.rel_append (hfg _ _ hab) ih

theorem writes_prepareBuildPlan {tree : FileTree} {env : BuildEnv} {sdists : List (SdistTarget V S)}
    {plan : BuildPlan}
    (hnames : ∀ sdt ∈ sdists, ∀ lib ∈ sdt.sd.pkg.libraries, '/' ∉ lib.name.str.toList)
    (h : prepareBuildPlan tree sdists = .ok plan) :
    List.Forall₂ (fun lib plan => Writes tree env plan lib) (allFiles tree env sdists)
      plan.libraries := by
  unfold prepareBuildPlan at h
  obtain ⟨packages, hpackages, hplan⟩ := bind_eq_ok.1 h
  cases hplan
  apply forall₂_flatMap (forall₂_of_mapM_eq_ok hpackages)
  rintro sdt package ⟨hsdt, hpackage⟩
  unfold prepareOne at hpackage
  obtain ⟨libraries, hlibraries, hpackage⟩ := bind_eq_ok.1 hpackage
  cases hpackage
  rw [List.forall₂_map_left_iff]
  apply (forall₂_of_mapM_eq_ok hlibraries).imp
  rintro lib plan ⟨hlib, hplan⟩
  exact writes_of_prepareLibrary (hnames sdt hsdt lib hlib) hplan

/-- What is written for the libraries, from what is written for each. -/
theorem flatMap_eq {γ : Type} {tree : FileTree} {env : BuildEnv} {libs : List LibraryFiles}
    {plans : List LibraryPlan} {f : LibraryFiles → List γ} {g : LibraryPlan → List γ}
    (h : List.Forall₂ (fun lib plan => Writes tree env plan lib) libs plans)
    (hfg : ∀ lib plan, Writes tree env plan lib → g plan = f lib) :
    plans.flatMap g = libs.flatMap f := by
  induction h with
  | nil => rfl
  | cons hab _ ih => rw [List.flatMap_cons, List.flatMap_cons, hfg _ _ hab, ih]

theorem perm_compilations {tree : FileTree} {env : BuildEnv} {plan : BuildPlan}
    {libs : List LibraryFiles}
    (h : List.Forall₂ (fun lib plan => Writes tree env plan lib) libs plan.libraries) :
    (plan.compilations.map fun c => tree.fileAt (c.calcObjectFilePath tree env)).Perm
      (libs.flatMap fun lib => lib.compiled.map (lib.objectFile env.toolchain)) := by
  unfold BuildPlan.compilations
  simp only [List.map_append, List.map_flatMap]
  rw [flatMap_eq h fun _ _ hw => hw.sources, flatMap_eq h fun _ _ hw => hw.headers,
    flatMap_eq h fun _ _ hw => hw.mains]
  have hcompiled : (fun lib : LibraryFiles => lib.compiled.map (lib.objectFile env.toolchain)) =
      fun lib => lib.sources.map (fun file => lib.objectFile env.toolchain ⟨"obj", file⟩) ++
        (lib.headers ++ lib.publicHeaders).map
          (fun file => lib.objectFile env.toolchain ⟨"timestamps", file⟩) ++
        (lib.apps ++ lib.tests).map fun file => lib.objectFile env.toolchain ⟨"obj", file⟩ := by
    funext lib
    unfold LibraryFiles.compiled
    rw [List.map_append, List.map_append, List.map_map, List.map_map, List.map_map]
    rfl
  rw [hcompiled]
  exact ((List.flatMap_append_perm libs _ _).append_right _).trans
    (List.flatMap_append_perm libs _ _)

theorem map_executables {tree : FileTree} {env : BuildEnv} {plan : BuildPlan}
    {libs : List LibraryFiles}
    (h : List.Forall₂ (fun lib plan => Writes tree env plan lib) libs plan.libraries) :
    (plan.executables.map fun exe => tree.fileAt (exe.calcExecutablePath env)) =
      libs.flatMap fun lib => lib.entries.map (lib.executableFile env.toolchain) := by
  unfold BuildPlan.executables
  rw [List.map_flatMap]
  exact flatMap_eq h fun _ _ hw => hw.executables

theorem map_archives {tree : FileTree} {env : BuildEnv} {plan : BuildPlan}
    {libs : List LibraryFiles}
    (h : List.Forall₂ (fun lib plan => Writes tree env plan lib) libs plan.libraries) :
    (plan.archives.map fun ar =>
        tree.fileAt (env.outputRoot / ar.calcArchiveFilePath env.toolchain)) =
      libs.filterMap (LibraryFiles.archiveFile env.toolchain) := by
  unfold BuildPlan.archives
  rw [List.map_filterMap]
  generalize plan.libraries = plans at h
  induction h with
  | nil => rfl
  | cons hab _ ih => rw [List.filterMap_cons, List.filterMap_cons, hab.archive, ih]

theorem writesOnce_iff_filesOnce {tree : FileTree} {env : BuildEnv} {plan : BuildPlan}
    {libs : List LibraryFiles}
    (h : List.Forall₂ (fun lib plan => Writes tree env plan lib) libs plan.libraries) :
    WritesOnce tree env plan ↔ FilesOnce env.toolchain libs := by
  have hobjects := perm_compilations h
  have hexecutables := map_executables h
  have harchives := map_archives h
  have hobject : ∀ {lib c}, lib ∈ libs → c ∈ lib.compiled →
      lib.objectFile env.toolchain c ∈
        plan.compilations.map fun c => tree.fileAt (c.calcObjectFilePath tree env) :=
    fun hlib hc => hobjects.mem_iff.2 (List.mem_flatMap.2 ⟨_, hlib, List.mem_map_of_mem hc⟩)
  constructor
  · rintro ⟨honce, hexeOnce, hapart⟩
    refine ⟨hobjects.nodup_iff.1 honce, hexecutables ▸ hexeOnce, fun a ha b hb => ⟨?_, ?_⟩⟩
    · intro c hc e he
      obtain ⟨comp, hcomp, hcompFile⟩ := List.mem_map.1 (hobject ha hc)
      have hexe : b.executableFile env.toolchain e ∈
          plan.executables.map fun exe => tree.fileAt (exe.calcExecutablePath env) :=
        hexecutables ▸ List.mem_flatMap.2 ⟨b, hb, List.mem_map_of_mem he⟩
      obtain ⟨exe, hexe, hexeFile⟩ := List.mem_map.1 hexe
      rw [← hcompFile, ← hexeFile]
      exact (hapart comp hcomp).1 exe hexe
    · intro c hc harchive
      obtain ⟨comp, hcomp, hcompFile⟩ := List.mem_map.1 (hobject ha hc)
      have har : a.objectFile env.toolchain c ∈ plan.archives.map fun ar =>
          tree.fileAt (env.outputRoot / ar.calcArchiveFilePath env.toolchain) :=
        harchives ▸ List.mem_filterMap.2 ⟨b, hb, harchive⟩
      obtain ⟨ar, har, harFile⟩ := List.mem_map.1 har
      exact (hapart comp hcomp).2 ar har (hcompFile.trans harFile.symm)
  · rintro ⟨honce, hexeOnce, hapart⟩
    refine ⟨hobjects.nodup_iff.2 honce, hexecutables ▸ hexeOnce, fun comp hcomp => ?_⟩
    obtain ⟨a, ha, hfile⟩ := List.mem_flatMap.1
      (hobjects.mem_iff.1 (List.mem_map_of_mem hcomp))
    obtain ⟨c, hc, hfile⟩ := List.mem_map.1 hfile
    rw [← hfile]
    constructor
    · intro exe hexe
      obtain ⟨b, hb, hexeFile⟩ := List.mem_flatMap.1 (hexecutables ▸ List.mem_map_of_mem hexe)
      obtain ⟨e, he, hexeFile⟩ := List.mem_map.1 hexeFile
      rw [← hexeFile]
      exact (hapart a ha b hb).1 c hc e he
    · intro ar har
      obtain ⟨b, hb, harFile⟩ := List.mem_filterMap.1 (harchives ▸ List.mem_map_of_mem har)
      intro heq
      exact (hapart a ha b hb).2 c hc (harFile.trans (congrArg some heq.symm))

/-- A plan writes each file once exactly when the source trees keep its outputs apart. -/
theorem writesOnce_iff {tree : FileTree} {env : BuildEnv} {sdists : List (SdistTarget V S)}
    {plan : BuildPlan}
    (hnames : ∀ sdt ∈ sdists, ∀ lib ∈ sdt.sd.pkg.libraries,
      Name.fromString lib.name.str = .ok lib.name)
    (h : prepareBuildPlan tree sdists = .ok plan) :
    WritesOnce tree env plan ↔ OutputsApart env.toolchain (allFiles tree env sdists) := by
  have hnoSeparator := fun sdt hsdt lib hlib =>
    Name.noSeparator_of_fromString (hnames sdt hsdt lib hlib)
  rw [writesOnce_iff_filesOnce (writes_prepareBuildPlan hnoSeparator h)]
  apply filesOnce_iff
  intro files hfiles
  obtain ⟨sdt, _, hfiles⟩ := List.mem_flatMap.1 hfiles
  obtain ⟨lib, _, rfl⟩ := List.mem_map.1 hfiles
  exact collected_libraryFiles tree env sdt lib

/-! ## Two projects -/

def gnuToolchain : Toolchain where
  objectSuffix := ".o"
  archiveSuffix := ".a"
  executableSuffix := ""
  object_noSeparator := by decide
  archive_noSeparator := by decide
  executable_noSeparator := by decide

def buildEnv : BuildEnv := ⟨gnuToolchain, Path.ofString "_build"⟩

/-- A library without dependencies. -/
def libraryAt (name path : String) : Crs.LibraryInfo ℕ :=
  ⟨⟨name⟩, Path.ofString path, [], [], [], []⟩

/-- A project that is built with its tests and its apps. -/
def projectTarget (libraries : List (Crs.LibraryInfo ℕ)) : SdistTarget ℕ ℕ where
  sd := ⟨⟨⟨⟨"testing"⟩, 0, 1⟩, libraries, .null, .null⟩, Path.ofString "/proj"⟩
  params := ⟨Path.ofString "", true, true, true⟩

/-- Two libraries side by side, with an object and a test executable of one name. -/
def helloTree : FileTree where
  currentPath := ["proj"]
  directories := []
  files :=
    [["proj", "libs", "hello", "src", "hello.cpp"],
     ["proj", "libs", "hello", "src", "hello.test.cpp"],
     ["proj", "libs", "hello2", "src", "hello.cpp"],
     ["proj", "libs", "hello2", "src", "hello.test.cpp"]]
  nodup := by decide
  plain := by decide

def helloTarget : SdistTarget ℕ ℕ :=
  projectTarget [libraryAt "hello" "libs/hello", libraryAt "hello2" "libs/hello2"]

/-- One header below `src` and one below `include`, of one name. -/
def configTree : FileTree where
  currentPath := ["proj"]
  directories := []
  files := [["proj", "src", "config.hpp"], ["proj", "include", "config.hpp"]]
  nodup := by decide
  plain := by decide

def configTarget : SdistTarget ℕ ℕ := projectTarget [libraryAt "config" "."]

theorem writesOnce_iff_hello :
    OutputsApart gnuToolchain (allFiles helloTree buildEnv [helloTarget]) := by
  obtain ⟨plan, hplan, honce⟩ : ∃ plan, prepareBuildPlan helloTree [helloTarget] = .ok plan ∧
      WritesOnce helloTree buildEnv plan := exists_ok (by decide +kernel)
  exact (writesOnce_iff (by decide) hplan).1 honce

/-- The checks of the two headers write one file. -/
theorem not_writesOnce :
    ¬ ∀ (tree : FileTree) (env : BuildEnv) (sdt : SdistTarget ℕ ℕ) (plan : BuildPlan),
      (∀ lib ∈ sdt.sd.pkg.libraries, Name.fromString lib.name.str = .ok lib.name) →
      (sdt.sd.pkg.libraries.map fun lib => lib.path.normalizePath).Nodup →
      prepareBuildPlan tree [sdt] = .ok plan → WritesOnce tree env plan := by
  intro h
  obtain ⟨plan, hplan, htwice⟩ : ∃ plan, prepareBuildPlan configTree [configTarget] = .ok plan ∧
      ¬ WritesOnce configTree buildEnv plan := exists_ok (by decide +kernel)
  exact htwice (h configTree buildEnv configTarget plan (by decide) (by decide) hplan)

end Bpt.Plan
