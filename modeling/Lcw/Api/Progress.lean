/- digest: When the result of `do_progress` says whether a completion was delivered. -/

import Lcw.Gex.Progress
import Lcw.Mpi.Progress

set_option autoImplicit false
set_option relaxedAutoImplicit false

namespace Lcw.Api

open Interleave

/-- The result is about the code of `do_progress` itself: it is right under the REQUEST manager,
and wherever no continuation or message handler signals in a `do_progress` that does not. -/
theorem do_progress_tells {m : Mpi.Config} {g : Gex.Config} {s : (Mpi.metered m).State}
    {u : (Gex.metered g).State} (hs : System.Reach (fun _ _ => True) (Mpi.meteredStart m) s)
    (hu : System.Reach (fun _ _ => True) (Gex.meteredStart g) u) :
    (TellUnlessInner Mpi.Call.asks Mpi.CallResult.answer s.shared.2 ∧
      (m.compType = .request → AllTell Mpi.Call.asks Mpi.CallResult.answer s.shared.2) ∧
      (System.Reach (Mpi.Undisturbed m) (Mpi.meteredStart m) s →
        AllTell Mpi.Call.asks Mpi.CallResult.answer s.shared.2)) ∧
    TellUnlessInner Gex.Call.asks Gex.CallResult.answer u.shared.2 ∧
      (System.Reach (Gex.Undisturbed g) (Gex.meteredStart g) u →
        AllTell Gex.Call.asks Gex.CallResult.answer u.shared.2) := by
  refine ⟨⟨?_, fun request => ?_, fun h => ?_⟩, ?_, fun h => ?_⟩
  · have any : System.Reach (fun s e => False → Mpi.Undisturbed m s e) (Mpi.meteredStart m) s :=
      hs.mono fun _ _ _ never => never.elim
    exact (Mpi.metered_of_reach any).tell_unless_inner
  · have quiet : System.Reach (fun s e => True → Mpi.Undisturbed m s e) (Mpi.meteredStart m) s :=
      hs.mono fun s e _ _ => Mpi.undisturbed_request request s e
    exact (Mpi.metered_of_reach quiet).all_tell trivial
  · have quiet : System.Reach (fun s e => True → Mpi.Undisturbed m s e) (Mpi.meteredStart m) s :=
      h.mono fun _ _ hok _ => hok
    exact (Mpi.metered_of_reach quiet).all_tell trivial
  · have any : System.Reach (fun s e => False → Gex.Undisturbed g s e) (Gex.meteredStart g) u :=
      hu.mono fun _ _ _ never => never.elim
    exact (Gex.metered_of_reach any).tell_unless_inner
  · have quiet : System.Reach (fun s e => True → Gex.Undisturbed g s e) (Gex.meteredStart g) u :=
      h.mono fun _ _ hok _ => hok
    exact (Gex.metered_of_reach quiet).all_tell trivial

section Runs

open Mpi in
/-- A process allocates its device and sends itself a byte; MPI completes the send. -/
def sendRun (J : Mpi.Config) (n : Nat) : List (Mpi.metered J).Event :=
  .intr (⟨0, 0⟩ : Tid) (.call (.allocDevice 4 (some 7)) : Intr) ::
    List.replicate 10 (.exec (⟨0, 0⟩ : Tid)) ++
  .intr (⟨0, 0⟩ : Tid) (.call (.send ⟨0, 0⟩ 0 3 (.user 0) 1 (some 5) 0) : Intr) ::
    List.replicate n (.exec (⟨0, 0⟩ : Tid)) ++
  [.env (.sendDone ⟨1, ⟨⟨0, 0⟩, 0⟩, ⟨1, ⟨.send, ⟨0, 0⟩, 0, 3, .user 0, 1, 0⟩, some 5⟩⟩ : Env)]

open Mpi in
/-- The process makes progress for a number of operations. -/
def pollRun (J : Mpi.Config) (n : Nat) : List (Mpi.metered J).Event :=
  .intr (⟨0, 0⟩ : Tid) (.call (.doProgress ⟨0, 0⟩) : Intr) ::
    List.replicate n (.exec (⟨0, 0⟩ : Tid))

/-- One process, queues only. -/
def single : Gex.Config := ⟨1, fun _ => false⟩

open Gex in
/-- A process allocates a device and puts three bytes to itself. -/
def putRun : List (Gex.metered single).Event :=
  .intr (⟨0, 0⟩ : Mpi.Tid) (.call (.allocDevice 8 10) : Intr) ::
    List.replicate 6 (.exec (⟨0, 0⟩ : Mpi.Tid)) ++
  .intr (⟨0, 0⟩ : Mpi.Tid) (.call (.put ⟨0, 0, 0, 10⟩ 0 (.user 0 4) 3 7 6) : Intr) ::
    List.replicate 5 (.exec (⟨0, 0⟩ : Mpi.Tid))

open Gex in
/-- The process makes progress; the message is handled there when it is delivered. -/
def amRun (deliver : Bool) : List (Gex.metered single).Event :=
  [.intr (⟨0, 0⟩ : Mpi.Tid) (.call (.doProgress ⟨0, 0, 0, 10⟩) : Intr),
    .exec (⟨0, 0⟩ : Mpi.Tid)] ++
  if deliver then .intr (⟨0, 0⟩ : Mpi.Tid) (.deliver 0 : Intr) ::
      List.replicate 8 (.exec (⟨0, 0⟩ : Mpi.Tid))
    else List.replicate 2 (.exec (⟨0, 0⟩ : Mpi.Tid))

end Runs

/-- A completed send told by the REQUEST manager, and a poll of GASNet-EX that finds nothing. -/
theorem do_progress_tells_send :
    (∃ s : (Mpi.metered (Mpi.smallJob .request false 0)).State,
      (⟨some (.doProgress ⟨0, 0⟩), 1, 0⟩, Mpi.CallResult.bool true) ∈ s.shared.2.returned ∧
        AllTell Mpi.Call.asks Mpi.CallResult.answer s.shared.2) ∧
    ∃ u : (Gex.metered single).State,
      (⟨some (.doProgress ⟨0, 0, 0, 10⟩), 0, 0⟩, Gex.CallResult.progressed false) ∈
          u.shared.2.returned ∧
        AllTell Gex.Call.asks Gex.CallResult.answer u.shared.2 := by
  let J := Mpi.smallJob .request false 0
  have sent : (System.run (Mpi.meteredStart J) (sendRun J 8 ++ pollRun J 21)).map
      (fun s => s.shared.2.returned.getLast?) =
        some (some (⟨some (.doProgress ⟨0, 0⟩), 1, 0⟩, Mpi.CallResult.bool true)) := by
    decide +kernel
  have polled : (System.run (Gex.meteredStart single) (putRun ++ amRun false)).map
      (fun s => s.shared.2.returned.getLast?) =
        some (some (⟨some (.doProgress ⟨0, 0, 0, 10⟩), 0, 0⟩, .progressed false)) := by
    decide
  have quiet : ∀ e ∈ putRun ++ amRun false, ∀ s, Gex.Undisturbed single s e := by
    simp [putRun, amRun, Gex.Undisturbed]
  obtain ⟨s, reached, last⟩ := System.reach_probe_any sent
  obtain ⟨u, reached', last'⟩ :=
    System.reach_probe (System.admitted_of_mem quiet (Gex.meteredStart single)) polled
  have here := List.mem_of_getLast? last
  have here' := List.mem_of_getLast? last'
  obtain ⟨⟨-, request, -⟩, -, undisturbed⟩ :=
    do_progress_tells reached (reached'.mono fun _ _ _ => trivial)
  exact ⟨⟨s, here, request rfl⟩, u, here', undisturbed reached'⟩

/-- A continuation delivers the send, and a handler the put, while `do_progress` returns false. -/
theorem delivery_not_told :
    (∃ s : (Mpi.metered (Mpi.smallJob .continue false 0)).State,
      System.Reach (fun _ _ => True) (Mpi.meteredStart (Mpi.smallJob .continue false 0)) s ∧
        ¬ AllTell Mpi.Call.asks Mpi.CallResult.answer s.shared.2) ∧
    ∃ u : (Gex.metered single).State,
      System.Reach (fun _ _ => True) (Gex.meteredStart single) u ∧
        ¬ AllTell Gex.Call.asks Gex.CallResult.answer u.shared.2 := by
  let J := Mpi.smallJob .continue false 0
  have sent : (System.run (Mpi.meteredStart J) (sendRun J 7 ++ pollRun J 6 ++
      .intr (⟨0, 0⟩ : Mpi.Tid) (.continuation (.priv ⟨0, 0⟩) 0 : Mpi.Intr) ::
        List.replicate 9 (.exec (⟨0, 0⟩ : Mpi.Tid)))).map
      (fun s => s.shared.2.returned.getLast?) =
        some (some (⟨some (.doProgress ⟨0, 0⟩), 0, 1⟩, Mpi.CallResult.bool false)) := by
    decide +kernel
  have put : (System.run (Gex.meteredStart single) (putRun ++ amRun true)).map
      (fun s => s.shared.2.returned.getLast?) =
        some (some (⟨some (.doProgress ⟨0, 0, 0, 10⟩), 0, 1⟩, .progressed false)) := by
    decide
  obtain ⟨s, reached, last⟩ := System.reach_probe_any sent
  obtain ⟨u, reached', last'⟩ := System.reach_probe_any put
  have here := List.mem_of_getLast? last
  have here' := List.mem_of_getLast? last'
  refine ⟨⟨s, reached, fun all => ?_⟩, u, reached', fun all => ?_⟩
  · obtain ⟨b, hb, told⟩ := all _ here rfl
    cases hb
    exact absurd (told.mpr Nat.one_pos) Bool.false_ne_true
  · obtain ⟨b, hb, told⟩ := all _ here' rfl
    cases hb
    exact absurd (told.mpr Nat.one_pos) Bool.false_ne_true

end Lcw.Api
