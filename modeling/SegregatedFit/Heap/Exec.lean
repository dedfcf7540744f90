import SegregatedFit.Heap

/-!
How computations on a heap run, step by step: what each basic step makes of the heap and of the
journal, and how a sequence of steps stops at its first fault.
-/
namespace SegregatedFit

variable {H α β : Type}

namespace HeapM

theorem exec_pure (a : α) (h : Heap H) (j : Journal) :
    (pure a : HeapM H α).exec h j = (.ok (a, h), j) := rfl

theorem exec_bind (x : HeapM H α) (f : α → HeapM H β) (h : Heap H) (j : Journal) :
    (x >>= f).exec h j =
      match x.exec h j with
      | (.ok (a, h), j) => (f a).exec h j
      | (.error e, j) => (.error e, j) := by
  simp only [exec, StateT.run_bind, ExceptT.run_bind]
  cases (x.run h).run.run j with
  | mk r j => cases r <;> rfl

theorem exec_lift (x : Except Fault α) (h : Heap H) (j : Journal) :
    (liftM x : HeapM H α).exec h j = (x.map (·, h), j) := by
  cases x <;> rfl

theorem exec_get (h : Heap H) (j : Journal) :
    (get : HeapM H (Heap H)).exec h j = (.ok (h, h), j) := rfl

theorem exec_modify (f : Heap H → Heap H) (h : Heap H) (j : Journal) :
    (modify f : HeapM H Unit).exec h j = (.ok ((), f h), j) := rfl

end HeapM

namespace Heap

theorem exec_note (e : Event) (h : Heap H) (j : Journal) :
    (note e).exec h j = (.ok ((), h), j.push e) := rfl

theorem exec_fail (e : Fault) (h : Heap H) (j : Journal) :
    (fail e : HeapM H α).exec h j = (.error e, j) := rfl

theorem exec_view (f : Arena → Except Fault α) (h : Heap H) (j : Journal) :
    (view f).exec h j = ((f h.arena).map (·, h), j) := by
  simp only [view, HeapM.exec_bind, HeapM.exec_get]
  exact HeapM.exec_lift ..

theorem exec_edit (f : Arena → Except Fault Arena) (h : Heap H) (j : Journal) :
    (edit f).exec h j = ((f h.arena).map fun a => ((), { h with arena := a }), j) := by
  obtain ⟨host, arena, bins, topUsed, config, stats⟩ := h
  change ((do let a ← (liftM (f arena) : ExceptT Fault (StateM Journal) Arena); _) :
    ExceptT Fault (StateM Journal) (Unit × Heap H)).run.run j = _
  cases f arena <;> rfl

theorem exec_relink (f : Bins → Arena → Except Fault (Bins × Arena)) (h : Heap H) (j : Journal) :
    (relink f).exec h j =
      ((f h.bins h.arena).map fun r => ((), { h with bins := r.1, arena := r.2 }), j) := by
  obtain ⟨host, arena, bins, topUsed, config, stats⟩ := h
  change ((do let r ← (liftM (f bins arena) : ExceptT Fault (StateM Journal) (Bins × Arena)); _) :
    ExceptT Fault (StateM Journal) (Unit × Heap H)).run.run j = _
  cases f bins arena <;> rfl

theorem exec_setTopUsed (b : Bool) (h : Heap H) (j : Journal) :
    (setTopUsed b).exec h j = (.ok ((), { h with topUsed := b }), j) := rfl

theorem exec_account (f : Stats → Except Fault Stats) (h : Heap H) (j : Journal) :
    (account f).exec h j = ((f h.stats).map fun s => ((), { h with stats := s }), j) := by
  simp only [account, HeapM.exec_bind, HeapM.exec_get]
  cases f h.stats <;> rfl

theorem exec_recordHeapSize (h : Heap H) (j : Journal) :
    recordHeapSize.exec h j = (.ok ((), { h with stats := h.stats.recordHeapSize h.size }), j) := rfl

theorem exec_commit [Host H] (delta : Nat) (h : Heap H) (j : Journal) :
    (commit delta).exec h j =
      (.ok ((Host.extend h.host delta).granted, { h with host := (Host.extend h.host delta).host }),
        j ++ (Host.extend h.host delta).events) := rfl

end Heap

end SegregatedFit
