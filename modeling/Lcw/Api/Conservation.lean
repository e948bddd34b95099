/- digest: Which backends' performance counters agree once all that was accepted is delivered. -/

import Lcw.Gex.Counting
import Lcw.Lci2.Counting
import Lcw.Mpi.Accounts

set_option autoImplicit false
set_option relaxedAutoImplicit false

namespace Lcw.Api

open Interleave

/-- The MPI backend counts in every path. `comp_handler_lci_t::signal` counts nothing, and
`gex_reqhandler` counts no put and no produced completion. -/
theorem counters_conserved {cfg : Mpi.Config} {home : Mpi.Comp → Mpi.Rank}
    {isHandler : Lci2.Comp → Bool} {job : Gex.Config} {s : (Mpi.machine cfg).State}
    {u : (Lci2.watched isHandler).State} {v : (Gex.system job).State}
    (hs : System.Reach (Mpi.OwnComps cfg home) (Mpi.start cfg) s) (restS : Mpi.Quiescent s)
    (hu : System.Reach (fun _ _ => True) (Lci2.watchedStart isHandler) u)
    (restU : Lci2.Quiescent u)
    (hv : System.Reach (fun _ _ => True) (Gex.start job) v) (restV : Gex.Quiescent v) :
    Mpi.Tallied home s ∧
      (Lci2.Tallied u ↔ (∀ x ∈ u.shared.2.posts, isHandler x.comp = false) ∧
        (u.shared.2.handled = 0 → u.shared.2.polled = 0)) ∧
      (Gex.Tallied v ↔ v.shared.sent = []) :=
  ⟨Mpi.tallied hs restS, Lci2.tallied_iff hu restU, Gex.tallied_iff hv restV⟩

/-- The conditions are met and not met: MPI told of a send, LCI ran the handler of a send, and
GASNet delivered a put. -/
theorem counters_conserved_at_rest : ∃ s : (Mpi.machine Mpi.job).State,
    ∃ u : (Lci2.watched Lci2.seven).State, ∃ v : (Gex.system Gex.alone).State,
      s.shared.counters 0 .sendStart = 1 ∧ u.shared.1.counters .sendStart = 1 ∧
      v.shared.counters 0 .putStart = 1 ∧ Mpi.Tallied (fun _ => 0) s ∧
      (Lci2.Tallied u ↔ (∀ x ∈ u.shared.2.posts, Lci2.seven x.comp = false) ∧
        (u.shared.2.handled = 0 → u.shared.2.polled = 0)) ∧
      (Gex.Tallied v ↔ v.shared.sent = []) := by
  obtain ⟨s, hs, restS, sendS, -⟩ := Mpi.send_at_rest
  obtain ⟨u, hu, restU, sendU, -⟩ := Lci2.handled_send_at_rest
  obtain ⟨v, hv, restV, putV, -⟩ := Gex.put_at_rest
  exact ⟨s, u, v, sendS, sendU, putV, counters_conserved hs restS hu restU hv restV⟩

theorem counters_not_conserved :
    (∃ u : (Lci2.watched Lci2.seven).State,
      System.Reach (fun _ _ => True) (Lci2.watchedStart Lci2.seven) u ∧ Lci2.Quiescent u ∧
        u.shared.1.counters .sendStart ≠ u.shared.1.counters .sendEnd) ∧
    ∃ v : (Gex.system Gex.alone).State,
      System.Reach (fun _ _ => True) (Gex.start Gex.alone) v ∧ Gex.Quiescent v ∧
        v.shared.counters 0 .putStart ≠ v.shared.counters 0 .putEnd ∧
        (∀ o ∈ v.shared.outputs, Gex.alone.isHandler o.comp = false) ∧
        v.shared.counters 0 .compProduce ≠ v.shared.counters 0 .compConsume := by
  constructor
  · obtain ⟨u, hu, rest, started, ended⟩ := Lci2.handled_send_at_rest
    exact ⟨u, hu, rest, by omega⟩
  · obtain ⟨v, hv, rest, started, ended, produced, consumed⟩ := Gex.put_at_rest
    exact ⟨v, hv, rest, by omega, fun _ _ => rfl, by omega⟩

end Lcw.Api
