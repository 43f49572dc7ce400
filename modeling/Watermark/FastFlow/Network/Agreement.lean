import Watermark.FastFlow.Network.Progress

/-!
# Agreement — what the farms of fastflow_map.cpp and fastflow_farm.cpp leave
-/

namespace Watermark.FastFlow

open Reasoning

variable {cfg : Config}

namespace Network

namespace Map

/-- What the farm leaves of the photos in `photos_completed`. -/
def results (s : State (Map.program cfg)) : List (String × CImg) :=
  s.collector.photos_completed.map fun ii => (ii.Pho_title, s.memory.heap ii.P_Pointer)

theorem marked_of_completed (hn : 0 < cfg.threads)
    (htitles : (cfg.originals.map Prod.fst).Nodup) {s : State (Map.program cfg)}
    (hs : (system (Map.program cfg)).Reachable s) {ii : Map.Image}
    (hd : ii ∈ s.collector.photos_completed) :
    ∃ hk : ii.P_Pointer < cfg.copies.length,
      s.memory.heap ii.P_Pointer = markingLoop cfg.overlay cfg.copies[ii.P_Pointer] ∧
      ∀ p, cfg.copies[ii.P_Pointer].Inside p → s.memory.timesVisited ii.P_Pointer p = 1 := by
  obtain ⟨u, hu, h⟩ := (simulation (Map.lawful hn) (Map.steady cfg) hn).reachable hs
  have hreach := hu.of_restrict
  rw [← h.collector] at hd
  obtain ⟨hheap, hvisited⟩ := FastFlow.Map.marked_of_completed hn htitles hreach hd
  have hk := Map.pointer_lt hn hreach hd
  have hcopy := loadHeap_eq hk
  rw [h.memory] at hheap hvisited
  refine ⟨hk, ?_, fun p hp => hvisited p ?_⟩
  · rw [hheap, ← hcopy]
    rfl
  · rw [hcopy]
    exact hp

theorem results_perm (hn : 0 < cfg.threads) (htitles : (cfg.originals.map Prod.fst).Nodup)
    {s : State (Map.program cfg)} (hs : (system (Map.program cfg)).Reachable s)
    (hg : s.gatherer = .ended) : (results s).Perm cfg.sequentialResults := by
  have L := Map.lawful hn
  obtain ⟨u, hu, h⟩ := (simulation L (Map.steady cfg) hn).reachable hs
  have hfinished := h.finished L (Map.steady cfg) hn hu (inv hn hs) hg
  have hresults := FastFlow.Map.results_perm hn htitles hu.of_restrict hfinished
  unfold FastFlow.Map.results at hresults
  rw [h.collector, h.memory] at hresults
  exact hresults

end Map

namespace Farm

/-- What the farm leaves of the photos in `images_done`. -/
def results (s : State (Farm.program cfg)) : List (String × CImg) :=
  s.collector.map fun q => (q.title, s.memory.heap q.P_pointer)

theorem results_perm (hn : 0 < cfg.threads) {s : State (Farm.program cfg)}
    (hs : (system (Farm.program cfg)).Reachable s) (hg : s.gatherer = .ended) :
    (results s).Perm cfg.sequentialResults := by
  have L := Farm.lawful cfg
  obtain ⟨u, hu, h⟩ := (simulation L (Farm.steady cfg) hn).reachable hs
  have hfinished := h.finished L (Farm.steady cfg) hn hu (inv hn hs) hg
  have hresults := FastFlow.Farm.results_perm hu.of_restrict hfinished
  unfold FastFlow.Farm.results at hresults
  rw [h.collector, h.memory] at hresults
  exact hresults

end Farm

/-- On the threads and queues of the library every photo in `photos_completed` has each pixel marked
once, and when the gatherer has ended both farms hold every photo once, as sequential.cpp leaves
it. -/
theorem farms_leave_sequentialResults (cfg : Config) (hn : 1 ≤ cfg.number_of_workers)
    (htitles : (cfg.originals.map Prod.fst).Nodup) :
    (∀ s, (system (Map.program cfg)).Reachable s → ∀ ii ∈ s.collector.photos_completed,
      ∃ hk : ii.P_Pointer < cfg.copies.length,
        s.memory.heap ii.P_Pointer = markingLoop cfg.overlay cfg.copies[ii.P_Pointer] ∧
        ∀ p, cfg.copies[ii.P_Pointer].Inside p → s.memory.timesVisited ii.P_Pointer p = 1) ∧
    (∀ s, (system (Map.program cfg)).Reachable s → s.gatherer = .ended →
      (Map.results s).Perm cfg.sequentialResults) ∧
    (∀ t, (system (Farm.program cfg)).Reachable t → t.gatherer = .ended →
      (Farm.results t).Perm cfg.sequentialResults) := by
  have hpos : 0 < cfg.threads := by
    unfold Config.threads
    omega
  refine ⟨fun s hs ii hd => ?_, fun s hs hg => ?_, fun t ht hg => ?_⟩
  · exact Map.marked_of_completed hpos htitles hs hd
  · exact Map.results_perm hpos htitles hs hg
  · exact Farm.results_perm hpos ht hg

theorem farms_leave_sequentialResults_twoRows :
    (Map.results twoRowsMapEnd).Perm twoRows.sequentialResults ∧
      (Farm.results twoRowsFarmEnd).Perm twoRows.sequentialResults := by
  obtain ⟨_, hmap, hfarm⟩ := farms_leave_sequentialResults twoRows (by decide) (by decide)
  refine ⟨hmap _ twoRowsMapEnd_reachable ?_, hfarm _ twoRowsFarmEnd_reachable ?_⟩
  · exact gatherer_ended (by decide +kernel)
  · exact gatherer_ended (by decide +kernel)

end Network

end Watermark.FastFlow
