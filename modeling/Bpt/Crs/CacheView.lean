-- SUMMARY: The enabled entries of the package cache as the two package queries return them.
import Bpt.Crs.Info.Package

namespace Bpt.Crs

/-- An entry of the package cache (`cache_db::package_entry`). -/
structure PackageEntry (V S : Type) where
  packageId : Nat
  remoteId : Nat
  pkg : PackageInfo V S

/-- The answers of the two `for_package` queries on one cache content. SQL fixes
the rows of an answer, but not the order in which the rows of one remote come. -/
structure CacheView (V S : Type) [Semver V] where
  forPackage : Name → List (PackageEntry V S)
  forPackageVersion : Name → V → List (PackageEntry V S)
  name_of_mem : ∀ {name : Name} {e : PackageEntry V S}, e ∈ forPackage name → e.pkg.id.name = name
  version_perm : ∀ (name : Name) (version : V), (forPackageVersion name version).Perm
    ((forPackage name).filter fun e => Semver.toStr e.pkg.id.version = Semver.toStr version)

namespace CacheView

variable {V S : Type} [Semver V]

/-- Both queries answered from one list of entries, in its order. -/
def ofRows (rows : List (PackageEntry V S)) : CacheView V S where
  forPackage name := rows.filter fun e => e.pkg.id.name = name
  forPackageVersion name version := (rows.filter fun e => e.pkg.id.name = name).filter fun e =>
    Semver.toStr e.pkg.id.version = Semver.toStr version
  name_of_mem h := by simpa using (List.mem_filter.mp h).2
  version_perm _ _ := List.Perm.refl _

/-- An entry of an enabled remote. -/
def Enabled (view : CacheView V S) (e : PackageEntry V S) : Prop :=
  e ∈ view.forPackage e.pkg.id.name

theorem mem_forPackageVersion {view : CacheView V S} {name : Name} {version : V}
    {e : PackageEntry V S} :
    e ∈ view.forPackageVersion name version ↔
      e ∈ view.forPackage name ∧ e.pkg.id.version = version := by
  rw [(view.version_perm name version).mem_iff, List.mem_filter, decide_eq_true_iff,
    Semver.toStr_injective.eq_iff]

theorem enabled_of_mem {view : CacheView V S} {name : Name} {e : PackageEntry V S}
    (h : e ∈ view.forPackage name) : view.Enabled e := by
  unfold Enabled
  rwa [view.name_of_mem h]

end CacheView

end Bpt.Crs
