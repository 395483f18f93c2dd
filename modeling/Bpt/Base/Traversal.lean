-- SUMMARY: Recursive traversals of a graph that follow every edge each time: when they end, what they yield and in which order.
import Mathlib.Data.Set.Finite.Basic
import Mathlib.Logic.Relation
import Mathlib.Order.WellFoundedSet

/-!
# Traversals

A traversal of a node yields what the node has and then what its traversals of
the next nodes yield, one after the other. It does not remember what it has
visited, so it need not end, and it fails at the first node that does not exist.
The traversal is given with fuel, and `none` is a traversal that needs more.
-/

namespace Traversal

open Relation

variable {α β : Type}

/-- Visit items in order, up to the first error. -/
def collect (visit : α → Option (Except α (List β))) : List α → Option (Except α (List β))
  | [] => some (.ok [])
  | a :: rest =>
    match visit a with
    | none => none
    | some (.error e) => some (.error e)
    | some (.ok bs) =>
      match collect visit rest with
      | none => none
      | some (.error e) => some (.error e)
      | some (.ok cs) => some (.ok (bs ++ cs))

/-- Traverse a node. A node that exists has what it yields itself, and the next nodes. -/
def traverse (node : α → Option (List β × List α)) : Nat → α → Option (Except α (List β))
  | 0, _ => none
  | fuel + 1, a =>
    match node a with
    | none => some (.error a)
    | some (own, next) =>
      match collect (traverse node fuel) next with
      | none => none
      | some (.error e) => some (.error e)
      | some (.ok bs) => some (.ok (own ++ bs))

/-! ## Collecting -/

section

variable {visit visit' : α → Option (Except α (List β))} {a : α} {rest : List α}

theorem collect_cons_of_ok {bs : List β} (h : visit a = some (.ok bs)) :
    collect visit (a :: rest) = (collect visit rest).map (Except.map (bs ++ ·)) := by
  rw [collect, h]
  cases collect visit rest with
  | none => rfl
  | some r => cases r <;> rfl

theorem collect_cons_of_error {e : α} (h : visit a = some (.error e)) :
    collect visit (a :: rest) = some (.error e) := by
  rw [collect, h]

theorem collect_cons_of_none (h : visit a = none) : collect visit (a :: rest) = none := by
  rw [collect, h]

/-- What ends stays as it is with another visit that ends the same way. -/
theorem collect_mono {items : List α} {r : Except α (List β)}
    (hvisit : ∀ a ∈ items, ∀ r, visit a = some r → visit' a = some r)
    (h : collect visit items = some r) : collect visit' items = some r := by
  induction items generalizing r with
  | nil => exact h
  | cons a rest ih =>
      have hrest := fun a' ha' => hvisit a' (List.mem_cons_of_mem _ ha')
      cases ha : visit a with
      | none =>
          rw [collect_cons_of_none ha] at h
          cases h
      | some ra =>
          have ha' := hvisit a List.mem_cons_self ra ha
          cases ra with
          | error e => rwa [collect_cons_of_error ha, ← collect_cons_of_error ha'] at h
          | ok bs =>
              rw [collect_cons_of_ok ha] at h
              obtain ⟨r', hr', rfl⟩ := Option.map_eq_some_iff.mp h
              rw [collect_cons_of_ok ha', ih hrest hr', Option.map_some]

/-- A collection that succeeds concatenates what its visits yield. -/
theorem collect_eq_ok {items : List α} {bs : List β} (h : collect visit items = some (.ok bs)) :
    ∃ parts, List.Forall₂ (fun a part => visit a = some (.ok part)) items parts ∧
      bs = parts.flatten := by
  induction items generalizing bs with
  | nil =>
      cases h
      exact ⟨[], .nil, rfl⟩
  | cons a rest ih =>
      cases ha : visit a with
      | none =>
          rw [collect_cons_of_none ha] at h
          cases h
      | some ra =>
          cases ra with
          | error e =>
              rw [collect_cons_of_error ha] at h
              cases h
          | ok part =>
              rw [collect_cons_of_ok ha] at h
              obtain ⟨r', hr', hmap⟩ := Option.map_eq_some_iff.mp h
              cases r' with
              | error e => cases hmap
              | ok cs =>
                  obtain ⟨parts, hparts, rfl⟩ := ih hr'
                  cases hmap
                  exact ⟨part :: parts, .cons ha hparts, rfl⟩

/-- When nothing fails before a visit that does not end, the collection does not end. -/
theorem collect_eq_none {before after : List α} {b : α} (hb : visit b = none)
    (hbefore : ∀ a ∈ before, ∀ e, visit a ≠ some (.error e)) :
    collect visit (before ++ b :: after) = none := by
  induction before with
  | nil => exact collect_cons_of_none hb
  | cons a before ih =>
      have ih := ih fun a' ha' => hbefore a' (List.mem_cons_of_mem _ ha')
      rw [List.cons_append]
      cases ha : visit a with
      | none => exact collect_cons_of_none ha
      | some ra =>
          cases ra with
          | error e => exact absurd ha (hbefore a List.mem_cons_self e)
          | ok bs => rw [collect_cons_of_ok ha, ih, Option.map_none]

end

/-- A collection ends with enough fuel when every visit does that is reached. -/
theorem exists_collect (visit : Nat → α → Option (Except α (List β)))
    (hmono : ∀ fuel fuel' a r, fuel ≤ fuel' → visit fuel a = some r → visit fuel' a = some r)
    (items : List α)
    (hvisit : ∀ before a after, items = before ++ a :: after →
      (∀ c ∈ before, ∃ fuel bs, visit fuel c = some (.ok bs)) → ∃ fuel r, visit fuel a = some r) :
    ∃ fuel r, collect (visit fuel) items = some r := by
  induction items with
  | nil => exact ⟨0, .ok [], rfl⟩
  | cons a rest ih =>
      obtain ⟨fuel, ra, ha⟩ := hvisit [] a rest rfl (List.forall_mem_nil _)
      cases ra with
      | error e => exact ⟨fuel, .error e, collect_cons_of_error ha⟩
      | ok bs =>
          obtain ⟨fuel', r, hrest⟩ := ih fun before c after hsplit hbefore =>
            hvisit (a :: before) c after (by rw [hsplit, List.cons_append])
              (List.forall_mem_cons.mpr ⟨⟨fuel, bs, ha⟩, hbefore⟩)
          refine ⟨max fuel fuel', r.map (bs ++ ·), ?_⟩
          rw [collect_cons_of_ok (hmono _ _ _ _ (le_max_left _ _) ha),
            collect_mono (fun c _ rc => hmono _ _ c rc (le_max_right fuel fuel')) hrest,
            Option.map_some]

/-! ## Paths -/

section

variable (node : α → Option (List β × List α))

def Edge (a b : α) : Prop := ∃ own next, node a = some (own, next) ∧ b ∈ next

/-- Whatever can be reached exists, and no cycle can be reached. -/
def Complete (a : α) : Prop :=
  ∀ b, ReflTransGen (Edge node) a b → node b ≠ none ∧ ¬ TransGen (Edge node) b b

/-- A traversal of the first node goes on to the second one: what comes before it is complete. -/
def Descends (a b : α) : Prop :=
  ∃ own before after, node a = some (own, before ++ b :: after) ∧ ∀ c ∈ before, Complete node c

end

/-- Only finitely many sources and no cycle: going back along the relation is well-founded. -/
theorem wellFounded_of_acyclic {r : α → α → Prop} {s : Set α} (hs : s.Finite)
    (hsource : ∀ a b, r a b → a ∈ s) (hacyclic : ∀ a, ¬ TransGen r a a) :
    WellFounded fun b a => r a b := by
  have hstrict : IsStrictOrder α fun b a => TransGen r a b :=
    { irrefl := hacyclic, trans := fun _ _ _ hab hbc => hbc.trans hab }
  have hon : s.WellFoundedOn fun b a => TransGen r a b := hs.wellFoundedOn
  have hnone : ∀ a, a ∉ s → Acc (fun b a => r a b) a := fun a ha =>
    .intro a fun b hab => absurd (hsource a b hab) ha
  refine ⟨fun a => ?_⟩
  by_cases ha : a ∈ s
  · refine hon.induction ha fun b _ ih => .intro b fun c hbc => ?_
    by_cases hc : c ∈ s
    · exact ih c hc (.single hbc)
    · exact hnone c hc
  · exact hnone a ha

variable {node : α → Option (List β × List α)}

theorem Complete.of_edge {a b : α} (h : Complete node a) (hab : Edge node a b) : Complete node b :=
  fun c hbc => h c (.head hab hbc)

/-- A node is complete when it exists and the next ones are complete. -/
theorem complete_of_next {a : α} {own : List β} {next : List α} (ha : node a = some (own, next))
    (hnext : ∀ c ∈ next, Complete node c) : Complete node a := by
  have hedge : ∀ {c}, Edge node a c → Complete node c := by
    rintro c ⟨own', next', ha', hc⟩
    cases ha.symm.trans ha'
    exact hnext c hc
  intro b hab
  rcases ReflTransGen.cases_head hab with rfl | ⟨c, hac, hcb⟩
  · refine ⟨by simp [ha], fun hcycle => ?_⟩
    obtain ⟨c, hac, hca⟩ := TransGen.head'_iff.mp hcycle
    exact (hedge hac a hca).2 hcycle
  · exact hedge hac b hcb

/-! ## When a traversal ends -/

theorem traverse_succ_of_some {a : α} {own : List β} {next : List α} (fuel : Nat)
    (ha : node a = some (own, next)) :
    traverse node (fuel + 1) a =
      (collect (traverse node fuel) next).map (Except.map (own ++ ·)) := by
  rw [traverse, ha]
  dsimp only
  cases collect (traverse node fuel) next with
  | none => rfl
  | some r => cases r <;> rfl

theorem traverse_succ_of_none {a : α} (fuel : Nat) (ha : node a = none) :
    traverse node (fuel + 1) a = some (.error a) := by
  rw [traverse, ha]

/-- More fuel does not change a result. -/
theorem traverse_mono (fuel fuel' : Nat) (a : α) (r : Except α (List β)) (hle : fuel ≤ fuel')
    (h : traverse node fuel a = some r) : traverse node fuel' a = some r := by
  induction fuel generalizing fuel' a r with
  | zero => cases h
  | succ fuel ih =>
      obtain ⟨fuel', rfl⟩ : ∃ n, fuel' = n + 1 := ⟨fuel' - 1, by omega⟩
      cases ha : node a with
      | none => rwa [traverse_succ_of_none _ ha] at h ⊢
      | some p =>
          obtain ⟨own, next⟩ := p
          rw [traverse_succ_of_some _ ha] at h ⊢
          obtain ⟨r', hr', rfl⟩ := Option.map_eq_some_iff.mp h
          rw [collect_mono (fun c _ rc => ih fuel' c rc (by omega)) hr', Option.map_some]

/-- The traversal of a node that exists succeeds when those of the next ones do. -/
theorem traverse_eq_ok {fuel : Nat} {a : α} {bs : List β}
    (h : traverse node (fuel + 1) a = some (.ok bs)) :
    ∃ own next parts, node a = some (own, next) ∧
      List.Forall₂ (fun c part => traverse node fuel c = some (.ok part)) next parts ∧
      bs = own ++ parts.flatten := by
  cases ha : node a with
  | none =>
      rw [traverse_succ_of_none _ ha] at h
      cases h
  | some p =>
      obtain ⟨own, next⟩ := p
      rw [traverse_succ_of_some _ ha] at h
      obtain ⟨r, hr, hmap⟩ := Option.map_eq_some_iff.mp h
      cases r with
      | error e => cases hmap
      | ok cs =>
          obtain ⟨parts, hparts, rfl⟩ := collect_eq_ok hr
          cases hmap
          exact ⟨own, next, parts, rfl, hparts, rfl⟩

theorem forall₂_exists_right {γ δ : Type} {p : γ → δ → Prop} {cs : List γ} {ds : List δ}
    (h : List.Forall₂ p cs ds) {c : γ} (hc : c ∈ cs) : ∃ d ∈ ds, p c d := by
  induction h with
  | nil => cases hc
  | cons hcd _ ih =>
      rcases List.mem_cons.mp hc with rfl | hc
      · exact ⟨_, List.mem_cons_self, hcd⟩
      · obtain ⟨d, hd, hcd⟩ := ih hc
        exact ⟨d, List.mem_cons_of_mem _ hd, hcd⟩

/-- A traversal that succeeds has met neither a missing node nor a cycle. -/
theorem complete_of_traverse {fuel : Nat} {a : α} {bs : List β}
    (h : traverse node fuel a = some (.ok bs)) : Complete node a := by
  induction fuel generalizing a bs with
  | zero => cases h
  | succ fuel ih =>
      obtain ⟨own, next, parts, ha, hparts, _⟩ := traverse_eq_ok h
      refine complete_of_next ha fun c hc => ?_
      obtain ⟨part, _, hpart⟩ := forall₂_exists_right hparts hc
      exact ih hpart

/-- The traversal of a complete node does not fail. -/
theorem Complete.traverse_ne_error {fuel : Nat} {a e : α} (h : Complete node a) :
    traverse node fuel a ≠ some (.error e) := by
  induction fuel generalizing a e with
  | zero => simp [traverse]
  | succ fuel ih =>
      cases ha : node a with
      | none => exact absurd ha (h a .refl).1
      | some p =>
          obtain ⟨own, next⟩ := p
          have hnext : ∀ items, (∀ c ∈ items, Complete node c) →
              collect (traverse node fuel) items ≠ some (.error e) := by
            intro items hitems
            induction items with
            | nil => simp [collect]
            | cons c rest ihrest =>
                obtain ⟨hc, hrest⟩ := List.forall_mem_cons.mp hitems
                cases hvisit : traverse node fuel c with
                | none => simp [collect_cons_of_none hvisit]
                | some rc =>
                    cases rc with
                    | error e' => exact absurd hvisit (ih hc)
                    | ok bs =>
                        rw [collect_cons_of_ok hvisit]
                        intro hmap
                        obtain ⟨r, hr, hmap⟩ := Option.map_eq_some_iff.mp hmap
                        cases r with
                        | ok cs => cases hmap
                        | error e' =>
                            cases hmap
                            exact ihrest hrest hr
          rw [traverse_succ_of_some _ ha]
          intro hmap
          obtain ⟨r, hr, hmap⟩ := Option.map_eq_some_iff.mp hmap
          cases r with
          | ok cs => cases hmap
          | error e' =>
              cases hmap
              exact hnext next (fun c hc => h.of_edge ⟨own, next, ha, hc⟩) hr

/-- Every traversal ends exactly when no node descends to itself. -/
theorem terminates_iff (hfinite : {a | node a ≠ none}.Finite) :
    (∀ a, ∃ fuel r, traverse node fuel a = some r) ↔ ∀ a, ¬ TransGen (Descends node) a a := by
  constructor
  · intro hends a hcycle
    -- no fuel is enough on a cycle
    have hnever : ∀ fuel a, TransGen (Descends node) a a → traverse node fuel a = none := by
      intro fuel
      induction fuel with
      | zero => exact fun _ _ => rfl
      | succ fuel ih =>
          intro a hcycle
          obtain ⟨b, hab, hba⟩ := TransGen.head'_iff.mp hcycle
          have hb : TransGen (Descends node) b b := TransGen.tail' hba hab
          obtain ⟨own, before, after, ha, hbefore⟩ := hab
          rw [traverse_succ_of_some _ ha, collect_eq_none (ih b hb), Option.map_none]
          exact fun c hc _ => (hbefore c hc).traverse_ne_error
    obtain ⟨fuel, r, hr⟩ := hends a
    rw [hnever fuel a hcycle] at hr
    cases hr
  · intro hacyclic a
    have hwf : WellFounded fun b a => Descends node a b :=
      wellFounded_of_acyclic hfinite (fun a b ⟨_, _, _, ha, _⟩ => by simp [ha]) hacyclic
    induction a using hwf.induction with
    | _ a ih =>
        cases ha : node a with
        | none => exact ⟨1, .error a, traverse_succ_of_none 0 ha⟩
        | some p =>
            obtain ⟨own, next⟩ := p
            obtain ⟨fuel, r, hr⟩ := exists_collect (traverse node) traverse_mono next
              fun before c after hsplit hbefore =>
                ih c ⟨own, before, after, by rw [ha, hsplit], fun d hd =>
                  let ⟨_, _, hok⟩ := hbefore d hd
                  complete_of_traverse hok⟩
            exact ⟨fuel + 1, r.map (own ++ ·), by rw [traverse_succ_of_some _ ha, hr, Option.map_some]⟩

/-- The traversal of a complete node succeeds. -/
theorem Complete.exists_traverse (hfinite : {a | node a ≠ none}.Finite) {a : α}
    (h : Complete node a) : ∃ fuel bs, traverse node fuel a = some (.ok bs) := by
  have hwf : WellFounded fun b a => Complete node a ∧ Edge node a b := by
    refine wellFounded_of_acyclic hfinite (fun a b ⟨_, _, _, ha, _⟩ => by simp [ha]) fun a hcycle => ?_
    obtain ⟨_, ⟨hcomplete, _⟩, _⟩ := TransGen.head'_iff.mp hcycle
    exact (hcomplete a .refl).2 (TransGen.mono (fun _ _ h => h.2) _ _ hcycle)
  induction a using hwf.induction with
  | _ a ih =>
      cases ha : node a with
      | none => exact absurd ha (h a .refl).1
      | some p =>
          obtain ⟨own, next⟩ := p
          obtain ⟨fuel, r, hr⟩ := exists_collect (traverse node) traverse_mono next
            fun before c after hsplit _ =>
              have hedge : Edge node a c := ⟨own, next, ha, by simp [hsplit]⟩
              let ⟨fuel, bs, hok⟩ := ih c ⟨h, hedge⟩ (h.of_edge hedge)
              ⟨fuel, .ok bs, hok⟩
          have hend : traverse node (fuel + 1) a = some (r.map (own ++ ·)) := by
            rw [traverse_succ_of_some _ ha, hr, Option.map_some]
          cases r with
          | error e => exact absurd hend h.traverse_ne_error
          | ok bs => exact ⟨fuel + 1, own ++ bs, hend⟩

/-- With enough fuel the result is `r`. -/
def Converges {γ : Type} (f : Nat → Option γ) (r : γ) : Prop :=
  ∃ bound, ∀ fuel ≥ bound, f fuel = some r

theorem converges_of_traverse {fuel : Nat} {a : α} {r : Except α (List β)}
    (h : traverse node fuel a = some r) : Converges (fun fuel => traverse node fuel a) r :=
  ⟨fuel, fun fuel' hle => traverse_mono fuel fuel' a r hle h⟩

/-! ## What a traversal yields -/

/-- A traversal yields what the nodes have that it reaches. -/
theorem mem_traverse_iff {fuel : Nat} {a : α} {bs : List β}
    (h : traverse node fuel a = some (.ok bs)) {p : β} :
    p ∈ bs ↔ ∃ b own next, ReflTransGen (Edge node) a b ∧ node b = some (own, next) ∧ p ∈ own := by
  induction fuel generalizing a bs with
  | zero => cases h
  | succ fuel ih =>
      obtain ⟨own, next, parts, ha, hparts, rfl⟩ := traverse_eq_ok h
      have hrest : p ∈ parts.flatten ↔ ∃ c ∈ next, ∃ b own next, ReflTransGen (Edge node) c b ∧
          node b = some (own, next) ∧ p ∈ own := by
        clear h ha
        induction hparts with
        | nil => simp
        | cons hpart _ ihparts =>
            rw [List.flatten_cons, List.mem_append, ih hpart, ihparts]
            simp only [List.mem_cons, exists_eq_or_imp]
      rw [List.mem_append, hrest]
      constructor
      · rintro (hp | ⟨c, hc, b, own', next', hcb, hb, hp⟩)
        · exact ⟨a, own, next, .refl, ha, hp⟩
        · exact ⟨b, own', next', .head ⟨own, next, ha, hc⟩ hcb, hb, hp⟩
      · rintro ⟨b, own', next', hab, hb, hp⟩
        rcases ReflTransGen.cases_head hab with rfl | ⟨c, ⟨own'', next'', ha', hc⟩, hcb⟩
        · cases ha.symm.trans hb
          exact .inl hp
        · cases ha.symm.trans ha'
          exact .inr ⟨c, hc, b, own', next', hcb, hb, hp⟩

/-- Every occurrence of `p` has a later one of `q`. -/
def Follows (p q : β) (bs : List β) : Prop :=
  ∀ before after, bs = before ++ p :: after → q ∈ after

section

variable {p q : β} {bs cs : List β}

theorem follows_of_not_mem (h : p ∉ bs) : Follows p q bs := by
  rintro before after rfl
  exact absurd (by simp) h

theorem Follows.append (hbs : q ∈ cs ∨ Follows p q bs) (hcs : Follows p q cs) :
    Follows p q (bs ++ cs) := by
  intro before after h
  rcases List.append_eq_append_iff.mp h with ⟨mid, rfl, hcs'⟩ | ⟨mid, rfl, hmid⟩
  · exact hcs mid after hcs'
  · cases mid with
    | nil => exact hcs [] after (by simpa using hmid.symm)
    | cons x mid =>
        obtain ⟨rfl, rfl⟩ := List.cons.inj hmid
        rcases hbs with hq | hbs
        · exact List.mem_append_right _ hq
        · exact List.mem_append_left _ (hbs before mid rfl)

/-- The last occurrence of `p` comes before the last one of `q`. -/
theorem Follows.idxOf_lt [DecidableEq β] (h : Follows p q bs) (hp : p ∈ bs) :
    bs.reverse.idxOf q < bs.reverse.idxOf p := by
  obtain ⟨after, before, hsplit, hlast⟩ := List.eq_append_cons_of_mem (List.mem_reverse.mpr hp)
  have hbs : bs = before.reverse ++ p :: after.reverse := by
    rw [← List.reverse_reverse bs, hsplit]
    simp
  have hq : q ∈ after := List.mem_reverse.mp (h _ _ hbs)
  rw [hsplit, List.idxOf_append_of_mem hq, List.idxOf_append_of_notMem hlast, List.idxOf_cons_self,
    Nat.add_zero]
  exact List.idxOf_lt_length_of_mem hq

theorem follows_flatten {parts : List (List β)} (h : ∀ part ∈ parts, Follows p q part) :
    Follows p q parts.flatten := by
  induction parts with
  | nil => exact follows_of_not_mem (by simp)
  | cons part parts ih =>
      obtain ⟨hpart, hparts⟩ := List.forall_mem_cons.mp h
      exact Follows.append (.inr hpart) (ih hparts)

end

/-- What only one node has is followed by what a next node of it has. -/
theorem follows_traverse {x y : α} {p q : β}
    (hp : ∀ b own next, node b = some (own, next) → p ∈ own → b = x) (hxy : Edge node x y)
    (hq : ∃ own next, node y = some (own, next) ∧ q ∈ own) {fuel : Nat} {a : α} {bs : List β}
    (h : traverse node fuel a = some (.ok bs)) : Follows p q bs := by
  induction fuel generalizing a bs with
  | zero => cases h
  | succ fuel ih =>
      obtain ⟨own, next, parts, ha, hparts, rfl⟩ := traverse_eq_ok h
      refine Follows.append ?_ (follows_flatten fun part hpart => ?_)
      · by_cases hmem : p ∈ own
        · -- the node is `x`, and `y` is traversed after what `x` has itself
          obtain rfl := hp a own next ha hmem
          obtain ⟨own', next', hx, hy⟩ := hxy
          cases ha.symm.trans hx
          obtain ⟨part, hpart, hvisit⟩ := forall₂_exists_right hparts hy
          obtain ⟨ownY, nextY, hyNode, hq⟩ := hq
          exact .inl (List.mem_flatten_of_mem hpart
            ((mem_traverse_iff hvisit).mpr ⟨y, ownY, nextY, .refl, hyNode, hq⟩))
        · exact .inr (follows_of_not_mem hmem)
      · obtain ⟨c, _, hvisit⟩ := forall₂_exists_right hparts.flip hpart
        exact ih hvisit

end Traversal
