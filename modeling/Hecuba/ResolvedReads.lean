import Mathlib.Data.List.Sort
import Hecuba.LastWriteWins

/-! The rows that a select returns, over any database in which the last write wins. -/

namespace Hecuba

/-- What the code takes from Cassandra: what a statement makes of the content, and the
rows that the select of a TableMetadata returns for a key. -/
structure Database (S K V : Type) where
  apply : S → Effect K V → S
  select : S → K → List V

variable {N T : Nat} {S K V : Type} (D : Database S K V)

/-- What the statements of a client leave of the content its table had. -/
def Database.after (content : S) (effects : List (Effect K V)) : S := effects.foldl D.apply content

def Database.rowsAfter (content : S) (effects : List (Effect K V)) (keys : K) : List V :=
  D.select (D.after content effects) keys

theorem after_append (content : S) (effects : List (Effect K V)) (e : Effect K V) :
    D.after content (effects ++ [e]) = D.apply (D.after content effects) e := by
  rw [Database.after, List.foldl_append]
  rfl

/-- Last write wins: whatever the order in which statements with timestamps reach a table
with older content, and however often, a select returns what they leave when they are done
in the order of their timestamps. -/
def Database.Resolves (content : S) (selectRows : List (Statement N K V) → K → List V) : Prop :=
  ∀ (log : List (Statement N K V)) (writes : List (Int × Effect K V)),
    (∀ st ∈ log, st.timestamp.isSome = true) → (writes.Pairwise fun a b => a.1 < b.1) →
    (∀ x, x ∈ writes ↔ x ∈ dated log) → selectRows log = D.rowsAfter content (writes.map Prod.snd)

/-- A database that puts the statements in the order of their timestamps when it reads. -/
def Database.inStampOrder [DecidableEq K] [DecidableEq V] (content : S) (log : List (Statement N K V)) : K → List V :=
  D.rowsAfter content (((dated log).dedup.insertionSort fun a b => a.1 ≤ b.1).map Prod.snd)

theorem resolves_inStampOrder [DecidableEq K] [DecidableEq V] (content : S) :
    D.Resolves content (D.inStampOrder content : List (Statement N K V) → K → List V) := by
  intro log writes _ hinc hmem
  let byStamp (a b : Int × Effect K V) : Prop := a.1 ≤ b.1
  have hunique := StampsUnique.of_increasing hinc
  have hsorted : ((dated log).dedup.insertionSort byStamp).Pairwise byStamp :=
    haveI : Std.Total byStamp := ⟨fun a b => le_total a.1 b.1⟩
    haveI : IsTrans _ byStamp := ⟨fun _ _ _ => le_trans⟩
    List.pairwise_insertionSort _ _
  have hnodup : writes.Nodup := hinc.imp fun hlt he => absurd (congrArg Prod.fst he) (ne_of_lt hlt)
  have hperm : ((dated log).dedup.insertionSort byStamp).Perm writes := by
    refine (List.perm_insertionSort ..).trans ?_
    exact (List.perm_ext_iff_of_nodup (List.nodup_dedup _) hnodup).mpr fun x => by
      rw [List.mem_dedup, hmem]
  have heq : (dated log).dedup.insertionSort byStamp = writes :=
    hperm.eq_of_pairwise
      (fun a b ha hb hab hba => hunique a (hperm.subset ha) b hb (le_antisymm hab hba)) hsorted
      (hinc.imp le_of_lt)
  rw [← heq]
  rfl

section

variable {C D : Type} [DecidableEq K]

/-- A table read by its full primary key, whose statements are applied one after the other. -/
def keyedRows : Database (K → Option (C → Option D)) K (Values C D) where
  apply := applyEffect
  select table keys := ((table keys).map fun r c => some (r c)).toList

theorem resolves_select : (keyedRows : Database _ K (Values C D)).Resolves (fun _ => none)
    (fun (log : List (Statement N K (Values C D))) keys => (Table.select log keys).toList) := by
  intro log writes _ hinc hmem
  funext keys
  simp only [Table.select]
  rw [← Table.row_congr (StampsUnique.of_increasing hinc) hmem,
    Table.row_of_increasing hinc]
  rfl

end

variable [DecidableEq K] [DecidableEq V] {D}

theorem rowsOf_resolved {P : Params N K V} {s : State N T K V} (h : Reachable P s) {w : Fin N}
    {content : S} (hres : D.Resolves content P.selectRows) (hts : P.disableTimestamps w = false)
    (hfresh : s.FreshRows w) {keys : K} {rest : List (Instr N K V)}
    (ht : (s.clients w).todo = .select keys :: rest) :
    s.rowsOf P w keys = D.rowsAfter content ((s.clients w).issued.map Statement.effect) keys := by
  have hno (st : Statement N K V) : ¬ s.AwaitsDelete w st := by
    rintro ⟨rest', ht'⟩
    rw [ht] at ht'
    cases ht'
  have h0 := acked_of_wait h ht rfl
  have hi := reachable_stampsIncrease h w
  have hsome := stamped_of_timestamps hi hts
  have hm : ∀ st, (st ∈ s.applied.filter fun st => st.table = w) ↔ st ∈ (s.clients w).issued := by
    intro st
    rw [List.mem_filter, decide_eq_true_eq]
    exact ⟨fun hst => issued_of_applied h hfresh hst.1 hst.2,
      fun hst => ⟨applied_of_issued h hfresh h0 hno hst, hi.table st hst⟩⟩
  have hlog : ∀ st ∈ s.applied.filter fun st => st.table = w, st.timestamp.isSome = true :=
    fun st hst => hsome st ((hm st).mp hst)
  rw [State.rowsOf, hres _ _ hlog (dated_increasing hi hts) (mem_dated_iff hsome hm),
    dated_of_stamped hsome, List.map_map]
  rfl

end Hecuba
