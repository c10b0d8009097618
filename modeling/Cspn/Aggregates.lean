import Mathlib

/-!
Aggregate signatures. Signatures are added up, and so are the keys that signed one hash; the
sum is then verified against these keys and hashes in one step. A sum is written here as the list
of its parts. What is asked of a scheme is that a sum verifies exactly if each of its parts
does.
-/
namespace Cspn.Aggregates
open List

/-- The parts of a sum by hash: the signatures of that hash with their keys. -/
abbrev Parts (Sig Key Hash : Type) := List (Hash × List (Sig × Key))

structure Scheme (Sig Key Hash : Type) where
  verify : Sig → Key → Hash → Bool
  verifyAggregated : List Sig → List (List Key) → List Hash → Bool
  exact : ∀ parts : Parts Sig Key Hash, parts ≠ [] → (parts.map Prod.fst).Nodup → (∀ part ∈ parts, part.2 ≠ []) →
    verifyAggregated (parts.flatMap fun part => part.2.map Prod.fst) (parts.map fun part => part.2.map Prod.snd)
        (parts.map Prod.fst) =
      parts.all fun part => part.2.all fun signed => verify signed.1 signed.2 part.1

namespace Scheme
variable {Sig Key Hash : Type}

theorem verifyAggregated_singles (scheme : Scheme Sig Key Hash) {signed : List (Hash × Sig × Key)} (some : signed ≠ [])
    (distinct : (signed.map Prod.fst).Nodup) :
    scheme.verifyAggregated (signed.map fun s => s.2.1) (signed.map fun s => [s.2.2]) (signed.map Prod.fst) =
      signed.all fun s => scheme.verify s.2.1 s.2.2 s.1 := by
  have nonempty : ∀ part ∈ signed.map fun s => (s.1, [s.2]), part.2 ≠ [] := by
    intro part member
    obtain ⟨s, -, rfl⟩ := mem_map.mp member
    exact cons_ne_nil _ _
  have spec := scheme.exact (signed.map fun s => (s.1, [s.2])) (by simpa using some)
    (by simpa [Function.comp_def] using distinct) nonempty
  have sigs : (signed.map fun s => (s.1, [s.2])).flatMap (fun part => part.2.map Prod.fst) = signed.map fun s => s.2.1 := by
    rw [flatMap_map, map_eq_flatMap]
    rfl
  rw [sigs] at spec
  simpa [Function.comp_def] using spec

section
variable (check : Sig → Key → Hash → Bool)

def checkAll (sigs : List Sig) (keys : List (List Key)) (hashes : List Hash) : Bool :=
  (sigs.zip ((keys.zip hashes).flatMap fun group => group.1.map fun key => (key, group.2))).all fun signed =>
    check signed.1 signed.2.1 signed.2.2

theorem checkAll_parts (parts : Parts Sig Key Hash) :
    checkAll check (parts.flatMap fun part => part.2.map Prod.fst) (parts.map fun part => part.2.map Prod.snd)
        (parts.map Prod.fst) = parts.all fun part => part.2.all fun signed => check signed.1 signed.2 part.1 := by
  induction parts with
  | nil => rfl
  | cons part rest ih =>
    have lengths : (part.2.map Prod.fst).length =
        ((part.2.map Prod.snd).map fun key => (key, part.1)).length := by simp
    have own : ((part.2.map Prod.fst).zip ((part.2.map Prod.snd).map fun key => (key, part.1))).all
        (fun signed => check signed.1 signed.2.1 signed.2.2) = part.2.all fun signed => check signed.1 signed.2 part.1 := by
      rw [map_map, zip_map', all_map]
      rfl
    rw [checkAll] at ih
    rw [checkAll, flatMap_cons, map_cons, map_cons, zip_cons_cons, flatMap_cons,
      zip_append lengths, all_append, own, ih, all_cons]

def ofVerify : Scheme Sig Key Hash where
  verify := check
  verifyAggregated := checkAll check
  exact parts _ _ _ := checkAll_parts check parts

end

end Scheme

end Cspn.Aggregates
