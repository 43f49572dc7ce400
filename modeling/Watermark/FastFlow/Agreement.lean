import Watermark.FastFlow.Farm
import Watermark.FastFlow.Map
import Watermark.Sequential

/-!
# Agreement — fastflow_map.cpp, fastflow_farm.cpp and sequential.cpp
-/

namespace Watermark.FastFlow

open Reasoning

/-- The photos as sequential.cpp holds them. -/
def Config.images (cfg : Config) : List Sequential.Image :=
  cfg.originals.map fun (title, copy) => ⟨copy, title⟩

/-- What sequential.cpp leaves of the photos. -/
def Config.sequentialResults (cfg : Config) : List (String × CImg) :=
  (Sequential.Images_Processed cfg.overlay cfg.images).map Sequential.Image.result

theorem sequentialResults_eq (cfg : Config) : cfg.sequentialResults =
    cfg.keys.map fun (title, k) => (title, markingLoop cfg.overlay (loadHeap cfg.copies k)) := by
  apply List.ext_getElem
  · simp [Config.sequentialResults, Config.images, Config.keys, Sequential.Images_Processed]
  · intro k hk hk'
    have hlt : k < cfg.copies.length := by
      simpa [Config.keys, Config.copies] using hk'
    simp only [Config.sequentialResults, Config.images, Config.keys, Sequential.Images_Processed,
      Sequential.mark, Sequential.Image.result, List.getElem_map, List.getElem_zipIdx, Nat.zero_add,
      loadHeap_eq hlt]
    simp only [Config.copies, List.getElem_map]

/-! ## At the end of a run -/

variable {cfg : Config}

namespace Map

theorem results_perm (hn : 0 < cfg.threads) (htitles : (cfg.originals.map Prod.fst).Nodup)
    {s : State (program cfg)} (hs : (system (program cfg)).Reachable s) (h : s.Finished) :
    (results s).Perm cfg.sequentialResults := by
  have hkeys := (keys_perm hn htitles hs h).map fun key => (key.1, (program cfg).sequential key.2)
  rw [List.map_map] at hkeys
  unfold results
  rw [sequentialResults_eq, heap_of_finished (lawful hn) hs h]
  exact hkeys

end Map

namespace Farm

theorem results_perm {s : State (program cfg)} (hs : (system (program cfg)).Reachable s)
    (h : s.Finished) : (results s).Perm cfg.sequentialResults := by
  have hphotos := (images_done_perm hs h).map
    fun q => (q.title, (program cfg).sequential q.P_pointer)
  unfold results
  rw [sequentialResults_eq, heap_of_finished (lawful cfg) hs h]
  unfold photos at hphotos
  rw [List.map_map] at hphotos
  exact hphotos

end Farm

/-- Every run ends, and what cannot go on is finished. -/
def Program.AlwaysEnds {τ ε γ : Type} (P : Program τ ε γ) : Prop :=
  (∀ _r : (system P).InfiniteRun, False) ∧
    ∀ s, (system P).Reachable s → (system P).Stuck s → s.Finished

theorem Program.Lawful.alwaysEnds {τ ε γ : Type} {P : Program τ ε γ} {future : ε → List τ}
    {fuel : ε → ℕ} (L : P.Lawful future fuel) (hn : 0 < P.threads) : P.AlwaysEnds :=
  ⟨fun r => no_infinite_run L r, fun _ _ hstuck => finished_of_stuck hn hstuck⟩

/-- Whichever worker gets a task and in whatever order calls, accesses to the photos and results
interleave: a photo enters `photos_completed` with each pixel marked once, and at the end both
programs hold every photo once, as sequential.cpp leaves it. -/
theorem agree_with_sequential (cfg : Config) (hn : 1 ≤ cfg.number_of_workers)
    (htitles : (cfg.originals.map Prod.fst).Nodup) :
    (Map.program cfg).AlwaysEnds ∧ (Farm.program cfg).AlwaysEnds ∧
    (∀ s, (system (Map.program cfg)).Reachable s → ∀ ii ∈ s.collector.photos_completed,
      ∃ hk : ii.P_Pointer < cfg.copies.length,
        s.memory.heap ii.P_Pointer = markingLoop cfg.overlay cfg.copies[ii.P_Pointer] ∧
        ∀ p, cfg.copies[ii.P_Pointer].Inside p → s.memory.timesVisited ii.P_Pointer p = 1) ∧
    (∀ s, (system (Map.program cfg)).Reachable s → s.Finished →
      (s.collector.photos_completed.map Map.Image.key).Perm
        ((Map.photos cfg).map Map.Image.key) ∧
      (s.collector.photos_completed.map Map.Image.Pho_title).Nodup ∧
      (Map.results s).Perm cfg.sequentialResults) ∧
    (∀ t, (system (Farm.program cfg)).Reachable t → t.Finished →
      (Farm.results t).Perm cfg.sequentialResults) ∧
    (∀ s t, (system (Map.program cfg)).Reachable s → (system (Farm.program cfg)).Reachable t →
      s.Finished → t.Finished → (Map.results s).Perm (Farm.results t)) := by
  have hpos : 0 < cfg.threads := by
    unfold Config.threads
    omega
  refine ⟨(Map.lawful hpos).alwaysEnds hpos, (Farm.lawful cfg).alwaysEnds hpos,
    fun s hs ii hd => ?_, fun s hs h => ⟨?_, ?_, ?_⟩, fun t ht h => ?_, fun s t hs ht h h' => ?_⟩
  · obtain ⟨hheap, hvisited⟩ := Map.marked_of_completed hpos htitles hs hd
    have hk := Map.pointer_lt hpos hs hd
    have hcopy := loadHeap_eq hk
    refine ⟨hk, ?_, fun p hp => hvisited p ?_⟩
    · rw [hheap, ← hcopy]
      rfl
    · rw [hcopy]
      exact hp
  · have hphotos : (Map.photos cfg).map Map.Image.key = cfg.keys := by
      unfold Map.photos
      rw [List.map_map]
      exact List.map_id _
    rw [hphotos]
    exact Map.keys_perm hpos htitles hs h
  · exact (Map.titles_perm hpos htitles hs h).nodup_iff.mpr htitles
  · exact Map.results_perm hpos htitles hs h
  · exact Farm.results_perm ht h
  · exact (Map.results_perm hpos htitles hs h).trans (Farm.results_perm ht h').symm

/-! ## A complete run of each program -/

instance {τ ε γ : Type} {P : Program τ ε γ} (s : State P) : Decidable s.Finished :=
  decidable_of_iff ((P.emit s.memory.heap s.emitter).isNone ∧ s.assigned.isEmpty ∧
    s.calls.isEmpty ∧ s.returned.isEmpty) (by
      simp only [Option.isNone_iff_eq_none, List.isEmpty_iff]
      rfl)

theorem one_column_lt : 1 < 2 ^ 31 := by decide

theorem two_rows_lt : 2 < 2 ^ 31 := by decide

/-- A photo of two rows, the second of which the watermark leaves alone. -/
def twoRows : Config where
  number_of_workers := 2
  overlay := ⟨⟨1, 2, 1, #[0, 255], rfl, one_column_lt, two_rows_lt⟩, averageColor⟩
  originals :=
    [("0.jpg", ⟨1, 2, 3, #[100, 1, 150, 2, 200, 3], rfl, one_column_lt, two_rows_lt⟩)]

/-- One worker gets both parts, works on them in turns, and the second arrives first. -/
def twoRowsMapRun : List (Action 2) :=
  List.flatten [List.replicate 4 (.emit 0), [.call 1, .call 0],
    List.replicate 4 (.work 1 0), List.replicate 2 (.work 0 0),
    List.replicate 6 (.work 1 0), List.replicate 4 (.work 0 0), [.collect 0, .collect 0]]

def twoRowsMapEnd : State (Map.program twoRows) :=
  ((system (Map.program twoRows)).exec (system (Map.program twoRows)).init twoRowsMapRun).get
    (by decide +kernel)

def twoRowsFarmRun : List (Action 2) :=
  [.emit 1, .call 0] ++ List.replicate 13 (.work 0 0) ++ [.collect 0]

def twoRowsFarmEnd : State (Farm.program twoRows) :=
  ((system (Farm.program twoRows)).exec (system (Farm.program twoRows)).init twoRowsFarmRun).get
    (by decide +kernel)

theorem twoRowsMapEnd_reachable : (system (Map.program twoRows)).Reachable twoRowsMapEnd :=
  System.reachable_get _

theorem twoRowsFarmEnd_reachable : (system (Farm.program twoRows)).Reachable twoRowsFarmEnd :=
  System.reachable_get _

theorem agree_with_sequential_twoRows :
    twoRowsMapEnd.collector.photos_completed.map Map.Image.key = [("0.jpg", 0)] ∧
      (Map.results twoRowsMapEnd).Perm twoRows.sequentialResults ∧
      (Map.results twoRowsMapEnd).Perm (Farm.results twoRowsFarmEnd) := by
  have hmap : twoRowsMapEnd.Finished := by decide +kernel
  have hfarm : twoRowsFarmEnd.Finished := by decide +kernel
  obtain ⟨_, _, _, hend, _, hboth⟩ := agree_with_sequential twoRows (by decide) (by decide)
  obtain ⟨_, _, hresults⟩ := hend _ twoRowsMapEnd_reachable hmap
  refine ⟨by decide +kernel, hresults, ?_⟩
  exact hboth _ _ twoRowsMapEnd_reachable twoRowsFarmEnd_reachable hmap hfarm

end Watermark.FastFlow
