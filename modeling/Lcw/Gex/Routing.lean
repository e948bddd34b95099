/- digest: Active messages reach the devices they were put on, once, when these are there. -/

import Lcw.Gex.Machine
import Lcw.Interleave.Discipline
import Lcw.Interleave.Placement

set_option autoImplicit false
set_option relaxedAutoImplicit false

namespace Lcw.Gex

open Interleave
open Lcw.Mpi (OpCode Counter Rank Tid Byte toSize)
open Function (update)

namespace World

variable (w : World)

/-- The `i`-th device of a process is allocated, with its completion object, and not freed. -/
def Ready (r : Rank) (i : Nat) : Prop :=
  ∃ d, (w.devices r)[i]? = some d ∧ ∃ n, w.impls d = some ⟨n, some d.putComp⟩

instance Ready.decidable (r : Rank) (i : Nat) : Decidable (w.Ready r i) :=
  decidable_of_iff
    (((w.devices r)[i]?).any fun d => (w.impls d).any fun x => x.comp = some d.putComp) (by
    simp only [Option.any_eq_true, decide_eq_true_iff, Ready]
    refine exists_congr fun d => and_congr_right fun _ => ⟨?_, ?_⟩
    · rintro ⟨⟨n, c⟩, live, rfl⟩
      exact ⟨n, live⟩
    · rintro ⟨n, live⟩
      exact ⟨_, live, rfl⟩)

/-- A message is on its way, or the handler has not signalled it yet. -/
def Open (m : Message) : Prop := m ∈ w.inflight ∨ ∃ t, w.handling t = some m

/-- Messages on their way, and those that were signalled. -/
def lists : Bool → List Message
  | false => w.inflight
  | true => w.outputs.filterMap (·.origin)

end World

def Stage.place : Stage → Option Bool
  | .inflight => some false
  | .signalled => some true
  | _ => none

/-- A signal of a message: its completion object, its origin, its length and its bytes. -/
def Output.Exact (w : World) (o : Output) (m : Message) : Prop :=
  o.rank = m.dst ∧ ∃ d, (w.devices m.dst)[m.index]? = some d ∧ o.comp = d.putComp ∧
    o.request = ⟨.putSignal, d.addr, m.src, 0, o.request.buffer, m.payload.length, 0⟩ ∧
    o.bytes = m.payload

/-- The invariant of the whole job. -/
structure Books (w : World) : Prop where
  position : ∀ r i (d : Dev), (w.devices r)[i]? = some d → d.rank = r ∧ d.index = i
  impl : ∀ d i, w.impls d = some i →
    (∀ n, i.id = some n → n = d.index) ∧ ∀ c, i.comp = some c → c = d.putComp
  ready : ∀ m, w.Open m → w.Ready m.dst m.index
  ids : ∀ i (m : Message), w.sent[i]? = some m → m.id = i
  known : ∀ m, w.Open m → m ∈ w.sent
  source : ∀ m ∈ w.sent, m.device.rank = m.src ∧ m.index = m.device.index
  placed : Placed Message.id w.lists (Stage.place ∘ w.stage)
  unsent : ∀ k, w.stage k = .unsent ↔ w.sent.length ≤ k
  handled : ∀ k t, w.stage k = .handled t ↔ ∃ m, w.handling t = some m ∧ m.id = k
  here : ∀ t m, w.handling t = some m → m.dst = t.rank
  target : ∀ t d, w.target t = some d → ∃ m, w.handling t = some m ∧
    (w.devices m.dst)[m.index]? = some d
  outputs : ∀ o ∈ w.outputs, ∀ m, o.origin = some m → m ∈ w.sent ∧ o.Exact w m
  results : ∀ e ∈ w.results, ∀ ret, e.1 = .progressed ret → ret = false

/-- What a thread has in hand: the devices while it allocates one, the message it handles, the
block it fills and the device it found. -/
structure View where
  list : Option (List Dev)
  handling : Option Message
  filling : Option (Nat × List Byte)
  target : Option Dev

def view (t : Tid) (w : World) : View where
  list := if w.builder t.rank = some t then some (w.devices t.rank) else none
  handling := w.handling t
  filling := (w.filling t).map fun k => (k, w.blocks t k)
  target := w.target t

/-- A thread outside of handlers. -/
def View.Free (v : View) : Prop := v.handling = none ∧ v.filling = none ∧ v.target = none

/-- A call starts with what its thread has, and `alloc_device` with the devices as well. -/
def View.Enters (v v' : View) : Call → Prop
  | .allocDevice .. => v.list = none ∧ ∃ l, v' = { v with list := some l }
  | _ => v' = v

/-- What a thread must know to perform an operation, and what it learns. -/
def contract (t : Tid) : Contract Op Op.Ret View where
  pre
    | .newDevice _, v => v.list.isSome
    | .pushDevice d, v => ∃ l, v.list = some l ∧ d.rank = t.rank ∧ d.index = l.length
    | .setId d n, _ => n = d.index
    | .setComp d c, _ => c = d.putComp
    | .requestMedium _ _ _ index d, v => v.Free ∧ d.rank = t.rank ∧ index = d.index
    | .amPoll, v | .barrierNB, v | .eventWait _, v | .userCode, v => v.Free
    | .allocate _, v => v.filling = none
    | .memcpy dst _ _, v => ∃ k bytes, v.filling = some (k, bytes) ∧ dst = .heap t k
    | .deviceAt index, v => ∃ m, v.handling = some m ∧ index = m.index ∧ v.target = none
    | .readComp d, v => v.target = some d
    | .signal c q (some m), v => v.handling = some m ∧ ∃ k d, v.filling = some (k, m.payload) ∧
        v.target = some d ∧ c = d.putComp ∧
        q = ⟨.putSignal, d.addr, m.src, 0, .heap t k, m.payload.length, 0⟩
    | .endCall (.device _), v => v.list.isSome
    | .endCall (.progressed ret), _ => ret = false
    | _, _ => True
  post
    | .newDevice c, v, d, v' => v' = v ∧ d.rank = t.rank ∧ d.putComp = c ∧
        ∀ l, v.list = some l → d.index = l.length
    | .pushDevice d, v, _, v' => v' = { v with list := v.list.map (· ++ [d]) }
    | .devicesSize, v, n, v' => v' = v ∧ ∀ l, v.list = some l → n = l.length
    | .readId d, v, n, v' => v' = v ∧ n = d.index
    | .allocate _, v, none, v' => v' = v
    | .allocate _, v, some b, v' => ∃ k, b = .heap t k ∧ v' = { v with filling := some (k, []) }
    | .memcpy _ amBuf n, v, _, v' => ∀ k old, v.filling = some (k, old) →
        v' = { v with filling := some (k, readBytes n amBuf) }
    | .deviceAt _, v, d, v' => v' = { v with target := some d }
    | .readComp d, v, c, v' => v' = v ∧ c = d.putComp
    | .signal _ _ (some _), v, _, v' =>
        v' = { v with handling := none, filling := none, target := none }
    | .endCall (.device _), v, _, v' => v' = { v with list := none }
    | _, v, _, v' => v' = v

/-- A put is injected when its target is ready, and a device is freed when no message for it is
on the way or being handled. -/
def Settled (cfg : Config) (s : (system cfg).State) : (system cfg).Event → Prop
  | .exec t => match s.prog t with
    | .op (.requestMedium dst _ _ index _) _ => World.Ready s.shared dst index
    | .op (.deleteDevice d) _ => ∀ m, World.Open s.shared m →
        ¬ (m.dst = d.rank ∧ m.index = d.index)
    | _ => True
  | _ => True

section Programs

variable {t : Tid} {isHandler : Comp → Bool} {v : View}

theorem wp_signalLocal {c : Comp} {q : Request} (free : v.Free) :
    (contract t).wp (signalComp isHandler c q none) (fun _ v' => v' = v) v := by
  refine ⟨trivial, fun _ v' hv => ?_⟩
  rw [show v' = v from hv]
  cases isHandler c with
  | true => exact ⟨free, fun _ _ hu => hu⟩
  | false => exact rfl

theorem readBytes_self (block : List Byte) : readBytes block.length block = block := by
  unfold readBytes
  apply List.ext_getElem
  · simp
  · intro i h1 h2
    simp [h2]

/-- The handler signals its message and leaves its thread as it found it. -/
theorem wp_gexReqhandler {m : Message} (free : v.Free) :
    (contract t).wp (gexReqhandler isHandler m) (fun _ v' => v' = v)
      { v with handling := some m } := by
  obtain ⟨noMessage, noBlock, noTarget⟩ := free
  refine ⟨noBlock, fun b v₁ hb => ?_⟩
  cases b with
  | none => exact ⟨trivial, fun r => r.elim⟩
  | some b =>
    obtain ⟨k, rfl, rfl⟩ := hb
    refine ⟨⟨k, [], rfl, rfl⟩, fun _ v₂ hv => ?_⟩
    obtain rfl := hv k [] rfl
    refine ⟨⟨m, rfl, rfl, noTarget⟩, fun d v₃ hv => ?_⟩
    obtain rfl := hv
    refine ⟨trivial, fun _ v₄ hv => ?_⟩
    obtain rfl := hv
    refine ⟨rfl, fun c v₅ hc => ?_⟩
    obtain ⟨rfl, rfl⟩ := hc
    refine ⟨⟨rfl, k, d, ?_, rfl, rfl, rfl⟩, fun _ v₆ hv => ?_⟩
    · rw [readBytes_self]
    · have back : v₆ = v := by
        rw [show v₆ = _ from hv]
        cases v
        simp only at noMessage noBlock noTarget
        simp [noMessage, noBlock, noTarget]
      rw [back]
      simp only [Prog.ret_bind]
      cases isHandler d.putComp with
      | true => exact ⟨⟨noMessage, noBlock, noTarget⟩, fun _ _ hu => hu⟩
      | false => exact rfl

theorem wp_allocDevice {l : List Dev} {c : Comp} (building : v.list = some l) :
    (contract t).wp (allocDevice c) (fun _ v' => ∃ l', v' = { v with list := some l' }) v := by
  refine ⟨by simp [contract, building], fun d v₁ hd => ?_⟩
  obtain ⟨rfl, rank, comp, index⟩ := hd
  refine ⟨⟨l, building, rank, index l building⟩, fun _ v₂ hv => ?_⟩
  have pushed : v₂ = { v₁ with list := some (l ++ [d]) } := by
    rw [show v₂ = _ from hv, building]
    rfl
  subst pushed
  refine ⟨trivial, fun n v₃ hn => ?_⟩
  obtain ⟨rfl, size⟩ := hn
  refine ⟨?_, fun _ v₄ hv => ⟨comp.symm, fun _ v₅ hv' => ?_⟩⟩
  · have length := size _ rfl
    simp only [contract, length, List.length_append, List.length_singleton, index l building]
    omega
  · exact ⟨l ++ [d], hv'.trans hv⟩

theorem wp_put {d : Dev} {rank : Int} {buf : Buffer} {length : Int} {comp : Comp} {ctx : Nat}
    (free : v.Free) (mine : d.rank = t.rank) :
    (contract t).wp (put isHandler d rank buf length comp ctx) (fun _ v' => v' = v) v := by
  refine ⟨trivial, fun n v₁ hn => ?_⟩
  obtain ⟨rfl, rfl⟩ := hn
  refine ⟨⟨free, mine, rfl⟩, fun _ v₂ hv => ?_⟩
  rw [show v₂ = v₁ from hv]
  simp only [Prog.ret_bind]
  exact (contract t).wp_call (wp_signalLocal free) fun _ v' hv' => hv'

/-- A call returns with what its thread had, but for the devices it was allocating. -/
theorem wp_apiCall {c : Call} (free : v.Free)
    (mine : ∀ d rank buf length comp ctx, c = .put d rank buf length comp ctx → d.rank = t.rank)
    {v₀ : View} (enter : v₀.Enters v c) :
    (contract t).wp (apiCall isHandler c) (fun _ v' => v' = v₀) v := by
  cases c with
  | put d rank buf length comp ctx =>
    obtain rfl := enter
    have body : (contract t).wp (callBody isHandler (.put d rank buf length comp ctx))
        (fun r v' => (∃ b, r = .posted b) ∧ v' = v) v := by
      refine (contract t).wp_call (wp_put free (mine _ _ _ _ _ _ rfl)) fun ret v₁ hv => ?_
      exact ⟨trivial, fun _ v₂ hv' => ⟨⟨ret, rfl⟩, hv'.trans hv⟩⟩
    refine (contract t).wp_call body fun r v' hv => ?_
    obtain ⟨⟨b, rfl⟩, rfl⟩ := hv
    exact ⟨trivial, fun _ _ hu => hu⟩
  | pollCq c =>
    obtain rfl := enter
    refine ⟨trivial, fun _ v₁ hv => ⟨trivial, fun q v₂ hv' => ?_⟩⟩
    have same : v₂ = v := hv'.trans hv
    subst same
    cases q with
    | none => exact ⟨trivial, fun _ _ hu => hu⟩
    | some q => exact ⟨trivial, fun _ v₃ hv => ⟨trivial, fun _ _ hu => hu.trans hv⟩⟩
  | doProgress d =>
    obtain rfl := enter
    refine ⟨trivial, fun _ v₁ hv => ?_⟩
    rw [show v₁ = v from hv]
    exact ⟨free, fun _ v₂ hv => ⟨rfl, fun _ _ hu => hu.trans hv⟩⟩
  | barrier d =>
    obtain rfl := enter
    refine ⟨free, fun n v₁ hv => ?_⟩
    rw [show v₁ = v from hv]
    exact ⟨free, fun _ v₂ hv => ⟨trivial, fun _ _ hu => hu.trans hv⟩⟩
  | freeDevice d =>
    obtain rfl := enter
    exact ⟨trivial, fun _ v₁ hv => ⟨trivial, fun _ _ hu => hu.trans hv⟩⟩
  | allocDevice n c =>
    obtain ⟨none', l, rfl⟩ := enter
    refine (contract t).wp_call ((contract t).wp_call (wp_allocDevice (l := l) rfl)
      fun d v' hv => ?_) (R := fun r v' => ∃ d l', r = .device d ∧ v' = { v₀ with list := some l' })
      fun r v' hv => ?_
    · obtain ⟨l', rfl⟩ := hv
      exact ⟨d, l', rfl, rfl⟩
    · obtain ⟨d, l', rfl, rfl⟩ := hv
      refine ⟨rfl, fun _ u hu => ?_⟩
      rw [Contract.wp_ret, show u = _ from hu, ← none']

end Programs

section Steps

variable {cfg : Config} {w w' : World} {t : Tid}

/-- Steps that change only the devices, without taking away what a message needs. -/
theorem Books.devices (h : Books w)
    (position : ∀ (r : Rank) (i : Nat) (d : Dev), (w'.devices r)[i]? = some d →
      d.rank = r ∧ d.index = i)
    (impl : ∀ d i, w'.impls d = some i →
      (∀ n, i.id = some n → n = d.index) ∧ ∀ c, i.comp = some c → c = d.putComp)
    (grow : ∀ (r : Rank) (i : Nat) (d : Dev), (w.devices r)[i]? = some d →
      (w'.devices r)[i]? = some d)
    (ready : ∀ m, w.Open m → w.Ready m.dst m.index → w'.Ready m.dst m.index)
    (inflight : w'.inflight = w.inflight) (handling : w'.handling = w.handling)
    (sent : w'.sent = w.sent) (stage : w'.stage = w.stage) (outputs : w'.outputs = w.outputs)
    (target : w'.target = w.target)
    (results : ∀ e ∈ w'.results, ∀ ret, e.1 = .progressed ret → ret = false) : Books w' := by
  have open' (m : Message) : w'.Open m ↔ w.Open m := by
    unfold World.Open
    rw [inflight, handling]
  have lists : w'.lists = w.lists := by
    funext b
    cases b
    · exact inflight
    · simp only [World.lists, outputs]
  refine ⟨position, impl, fun m hm => ?_, ?_, fun m hm => ?_, ?_, ?_, ?_, ?_, ?_, ?_, ?_,
    results⟩
  · have old := (open' m).mp hm
    exact ready m old (h.ready m old)
  · rw [sent]
    exact h.ids
  · rw [sent]
    exact h.known m ((open' m).mp hm)
  · rw [sent]
    exact h.source
  · rw [lists, stage]
    exact h.placed
  · rw [stage, sent]
    exact h.unsent
  · rw [stage, handling]
    exact h.handled
  · rw [handling]
    exact h.here
  · rw [target, handling]
    intro u d hd
    obtain ⟨m, hm, found⟩ := h.target u d hd
    exact ⟨m, hm, grow _ _ _ found⟩
  · rw [outputs, sent]
    intro o ho m hm
    obtain ⟨known, rank, d, found, rest⟩ := h.outputs o ho m hm
    exact ⟨known, rank, d, grow _ _ _ found, rest⟩

/-- Steps that leave devices and messages alone. -/
theorem Books.carry (h : Books w) (devices : w'.devices = w.devices)
    (impls : w'.impls = w.impls)
    (inflight : w'.inflight = w.inflight) (handling : w'.handling = w.handling)
    (sent : w'.sent = w.sent) (stage : w'.stage = w.stage) (outputs : w'.outputs = w.outputs)
    (target : w'.target = w.target)
    (results : ∀ e ∈ w'.results, ∀ ret, e.1 = .progressed ret → ret = false) : Books w' := by
  refine h.devices ?_ ?_ ?_ ?_ inflight handling sent stage outputs target results
  · rw [devices]
    exact h.position
  · rw [impls]
    exact h.impl
  · rw [devices]
    exact fun _ _ _ found => found
  · intro m _ hm
    unfold World.Ready at hm ⊢
    rw [devices, impls]
    exact hm

theorem Books.newDevice (h : Books w) {d : Dev} (rank : d.rank = t.rank)
    (index : d.index = (w.devices t.rank).length) : Books (w.newDevice d) := by
  refine h.devices h.position (fun e i he => ?_) (fun _ _ _ found => found)
    (fun m _ ready => ?_) rfl rfl rfl rfl rfl rfl h.results
  · by_cases same : e = d
    · subst same
      simp only [World.newDevice, Function.update_self] at he
      obtain rfl := Option.some.inj he
      exact ⟨fun _ hn => (by cases hn), fun _ hc => (by cases hc)⟩
    · simp only [World.newDevice, Function.update_of_ne same] at he
      exact h.impl e i he
  · obtain ⟨e, found, n, live⟩ := ready
    have other : e ≠ d := by
      rintro rfl
      obtain ⟨here, place⟩ := h.position _ _ e found
      have bound := (List.getElem?_eq_some_iff.mp found).1
      rw [← here, rank] at bound
      omega
    exact ⟨e, found, n, by simpa only [World.newDevice, Function.update_of_ne other] using live⟩

theorem getElem?_push {l : List Dev} {d e : Dev} {i : Nat} (h : l[i]? = some e) :
    (l ++ [d])[i]? = some e := by
  have bound := (List.getElem?_eq_some_iff.mp h).1
  rw [List.getElem?_append_left bound]
  exact h

theorem Books.pushDevice (h : Books w) {d : Dev} (rank : d.rank = t.rank)
    (index : d.index = (w.devices t.rank).length) : Books (w.pushDevice d) := by
  have grow (r : Rank) (i : Nat) (e : Dev) (found : (w.devices r)[i]? = some e) :
      ((w.pushDevice d).devices r)[i]? = some e := by
    by_cases same : r = d.rank
    · subst same
      simp only [World.pushDevice, Function.update_self]
      exact getElem?_push found
    · simpa only [World.pushDevice, Function.update_of_ne same] using found
  have members (r : Rank) (i : Nat) (e : Dev) (found : ((w.pushDevice d).devices r)[i]? = some e) :
      (w.devices r)[i]? = some e ∨ e = d ∧ r = d.rank ∧ i = (w.devices r).length := by
    by_cases same : r = d.rank
    · subst same
      simp only [World.pushDevice, Function.update_self] at found
      rcases Nat.lt_trichotomy i (w.devices d.rank).length with lt | eq | gt
      · rw [List.getElem?_append_left lt] at found
        exact .inl found
      · subst eq
        simp at found
        exact .inr ⟨found.symm, rfl, rfl⟩
      · rw [List.getElem?_eq_none (by simp; omega)] at found
        cases found
    · exact .inl (by simpa only [World.pushDevice, Function.update_of_ne same] using found)
  refine h.devices (fun r i e found => ?_) h.impl grow (fun m _ ready => ?_)
    rfl rfl rfl rfl rfl rfl h.results
  · rcases members r i e found with found | ⟨rfl, rfl, rfl⟩
    · exact h.position r i e found
    · exact ⟨rfl, by rw [index, rank]⟩
  · obtain ⟨e, found, live⟩ := ready
    exact ⟨e, grow _ _ _ found, live⟩

theorem Books.setImpl (h : Books w) {d : Dev} {i j : DeviceImpl} (live : w.impls d = some i)
    (id : ∀ n, j.id = some n → n = d.index) (comp : ∀ c, j.comp = some c → c = d.putComp)
    (keeps : i.comp = some d.putComp → j.comp = some d.putComp) : Books (w.setImpl d j) := by
  refine h.devices h.position (fun e k he => ?_) (fun _ _ _ found => found)
    (fun m _ ready => ?_) rfl rfl rfl rfl rfl rfl h.results
  · by_cases same : e = d
    · subst same
      simp only [World.setImpl, Function.update_self] at he
      obtain rfl := Option.some.inj he
      exact ⟨id, comp⟩
    · simp only [World.setImpl, Function.update_of_ne same] at he
      exact h.impl e k he
  · obtain ⟨e, found, n, ready⟩ := ready
    refine ⟨e, found, ?_⟩
    by_cases same : e = d
    · subst same
      obtain rfl := Option.some.inj (live.symm.trans ready)
      refine ⟨j.id, ?_⟩
      simp only [World.setImpl, Function.update_self]
      rw [← keeps rfl]
    · exact ⟨n, by simpa only [World.setImpl, Function.update_of_ne same] using ready⟩

/-- A device is freed when no message needs it. -/
theorem Books.deleteDevice (h : Books w) {d : Dev}
    (settled : ∀ m, w.Open m → ¬ (m.dst = d.rank ∧ m.index = d.index)) :
    Books { w with impls := update w.impls d none } := by
  refine h.devices h.position (fun e k he => ?_) (fun _ _ _ found => found)
    (fun m hm ready => ?_) rfl rfl rfl rfl rfl rfl h.results
  · by_cases same : e = d
    · simp [same] at he
    · exact h.impl e k (by simpa [same] using he)
  · obtain ⟨e, found, n, ready⟩ := ready
    have other : e ≠ d := by
      rintro rfl
      obtain ⟨rank, index⟩ := h.position _ _ e found
      exact settled m hm ⟨rank.symm, index.symm⟩
    exact ⟨e, found, n, by simpa [other] using ready⟩

theorem Books.sentNew (h : Books w) {m : Message} (id : m.id = w.sent.length)
    (source : m.device.rank = m.src ∧ m.index = m.device.index)
    (ready : w.Ready m.dst m.index) : Books (w.send m) := by
  have fresh : w.stage m.id = .unsent := (h.unsent m.id).mpr id.ge
  have open' (m' : Message) (hm : (w.send m).Open m') : w.Open m' ∨ m' = m := by
    rcases hm with hm | ⟨t, hm⟩
    · rcases List.mem_append.mp hm with old | new
      · exact .inl (.inl old)
      · exact .inr (List.mem_singleton.mp new)
    · exact .inl (.inr ⟨t, hm⟩)
  have lists : (w.send m).lists = update w.lists false (w.lists false ++ [m]) := by
    funext b
    cases b <;> simp [World.lists, World.send]
  refine ⟨h.position, h.impl, fun m' hm => ?_, fun i m' hm => ?_, fun m' hm => ?_,
    fun m' hm => ?_, ?_, fun k => ?_, fun k t => ?_, h.here, h.target, fun o ho m' hm => ?_,
    h.results⟩
  · rcases open' m' hm with old | rfl
    · exact h.ready m' old
    · exact ready
  · rcases Nat.lt_trichotomy i w.sent.length with lt | eq | gt
    · rw [World.send, List.getElem?_append_left lt] at hm
      exact h.ids i m' hm
    · subst eq
      simp [World.send] at hm
      rw [← hm, id]
    · rw [World.send, List.getElem?_eq_none (by simp; omega)] at hm
      cases hm
  · rcases open' m' hm with old | rfl
    · exact List.mem_append_left _ (h.known m' old)
    · exact List.mem_append_right _ (List.mem_singleton_self _)
  · rcases List.mem_append.mp hm with old | new
    · exact h.source m' old
    · obtain rfl := List.mem_singleton.mp new
      exact source
  · rw [lists, World.send, Function.comp_update]
    exact h.placed.push (by simp [fresh, Stage.place])
  · simp only [World.send, List.length_append, List.length_singleton]
    by_cases e : k = m.id
    · subst e
      simp [id]
    · rw [Function.update_of_ne e, h.unsent]
      omega
  · simp only [World.send]
    by_cases e : k = m.id
    · subst e
      rw [Function.update_self, ← h.handled, fresh]
      simp
    · rw [Function.update_of_ne e]
      exact h.handled k t
  · obtain ⟨known, exact'⟩ := h.outputs o ho m' hm
    exact ⟨List.mem_append_left _ known, exact'⟩

/-- The messages of two threads' handlers are different. -/
theorem Books.handler_unique (h : Books w) {u : Tid} {m m' : Message}
    (hm : w.handling t = some m) (hm' : w.handling u = some m') (same : m.id = m'.id) : t = u := by
  have first := (h.handled m.id t).mpr ⟨m, hm, rfl⟩
  have second := (h.handled m'.id u).mpr ⟨m', hm', rfl⟩
  rw [same, second] at first
  cases first
  rfl

theorem Books.stage_inflight (h : Books w) {m : Message} (hm : m ∈ w.inflight) :
    w.stage m.id = .inflight := by
  have place : (w.stage m.id).place = some false := h.placed.place_of_mem (i := false) hm
  cases e : w.stage m.id <;> rw [e] at place <;> simp_all [Stage.place]

theorem Books.deliver (h : Books w) {i : Nat} {m : Message} (hm : w.inflight[i]? = some m)
    (here : m.dst = t.rank) (idle : w.handling t = none) (blank : w.target t = none) :
    Books (w.deliver t i m) := by
  have listed := List.mem_of_getElem? hm
  have stage := h.stage_inflight listed
  have open' (m' : Message) (hm' : (w.deliver t i m).Open m') : w.Open m' := by
    rcases hm' with hm' | ⟨u, hm'⟩
    · exact .inl (List.mem_of_mem_eraseIdx hm')
    · by_cases e : u = t
      · subst e
        simp only [World.deliver, Function.update_self] at hm'
        obtain rfl := Option.some.inj hm'
        exact .inl listed
      · exact .inr ⟨u, by simpa only [World.deliver, Function.update_of_ne e] using hm'⟩
  have lists : (w.deliver t i m).lists = update w.lists false (w.inflight.eraseIdx i) := by
    funext b
    cases b <;> simp [World.lists, World.deliver]
  refine ⟨h.position, h.impl, fun m' hm' => h.ready m' (open' m' hm'), h.ids,
    fun m' hm' => h.known m' (open' m' hm'), h.source, ?_, fun k => ?_, fun k u => ?_,
    fun u m' hm' => ?_, fun u d hd => ?_, h.outputs, h.results⟩
  · rw [lists, World.deliver, Function.comp_update]
    exact h.placed.erase (i := false) hm
  · simp only [World.deliver]
    by_cases e : k = m.id
    · subst e
      rw [Function.update_self]
      have sent := h.unsent m.id
      rw [stage] at sent
      simpa using sent
    · rw [Function.update_of_ne e]
      exact h.unsent k
  · simp only [World.deliver]
    by_cases e : u = t
    · subst e
      rw [Function.update_self]
      by_cases ek : k = m.id
      · subst ek
        simp
      · rw [Function.update_of_ne ek, h.handled, idle]
        have other : ¬ m.id = k := fun e' => ek e'.symm
        simp [other]
    · rw [Function.update_of_ne e, ← h.handled]
      by_cases ek : k = m.id
      · subst ek
        rw [Function.update_self, stage]
        have other : ¬ t = u := fun e' => e e'.symm
        simp [other]
      · rw [Function.update_of_ne ek]
  · by_cases e : u = t
    · subst e
      simp only [World.deliver, Function.update_self] at hm'
      obtain rfl := Option.some.inj hm'
      exact here
    · exact h.here u m' (by simpa only [World.deliver, Function.update_of_ne e] using hm')
  · obtain ⟨m', hm', found⟩ := h.target u d hd
    have other : u ≠ t := by
      rintro rfl
      have old : w.target u = some d := hd
      rw [blank] at old
      cases old
    exact ⟨m', by simpa only [World.deliver, Function.update_of_ne other] using hm', found⟩

theorem Books.signal (h : Books w) {isHandler : Comp → Bool} {m : Message} {c : Comp}
    {q : Request} (hm : w.handling t = some m)
    (exact' : Output.Exact w ⟨t.rank, c, q, some m, w.bytesOf q.buffer⟩ m) :
    Books (w.signal isHandler t c q (some m)) := by
  have stage : w.stage m.id = .handled t := (h.handled m.id t).mpr ⟨m, hm, rfl⟩
  have open' (m' : Message) (hm' : (w.signal isHandler t c q (some m)).Open m') :
      w.Open m' := by
    rcases hm' with hm' | ⟨u, hm'⟩
    · exact .inl hm'
    · by_cases e : u = t
      · simp [World.signal, e] at hm'
      · exact .inr ⟨u, by simpa [World.signal, e] using hm'⟩
  have lists : (w.signal isHandler t c q (some m)).lists =
      update w.lists true (w.lists true ++ [m]) := by
    funext b
    cases b <;> simp [World.lists, World.signal]
  refine ⟨h.position, h.impl, fun m' hm' => h.ready m' (open' m' hm'), h.ids,
    fun m' hm' => h.known m' (open' m' hm'), h.source, ?_, fun k => ?_, fun k u => ?_,
    fun u m' hm' => ?_, fun u d hd => ?_, fun o ho m' hm' => ?_, h.results⟩
  · rw [lists, World.signal, Function.comp_update]
    exact h.placed.push (by simp [stage, Stage.place])
  · simp only [World.signal]
    by_cases e : k = m.id
    · subst e
      rw [Function.update_self]
      have sent := h.unsent m.id
      rw [stage] at sent
      simpa using sent
    · rw [Function.update_of_ne e]
      exact h.unsent k
  · simp only [World.signal]
    by_cases e : u = t
    · subst e
      rw [Function.update_self]
      by_cases ek : k = m.id
      · subst ek
        simp
      · rw [Function.update_of_ne ek, h.handled, hm]
        have other : ¬ m.id = k := fun e' => ek e'.symm
        simp [other]
    · rw [Function.update_of_ne e, ← h.handled]
      by_cases ek : k = m.id
      · subst ek
        rw [Function.update_self, stage]
        have other : ¬ t = u := fun e' => e e'.symm
        simp [other]
      · rw [Function.update_of_ne ek]
  · by_cases e : u = t
    · simp [World.signal, e] at hm'
    · exact h.here u m' (by simpa [World.signal, e] using hm')
  · by_cases e : u = t
    · simp [World.signal, e] at hd
    · obtain ⟨m', hm', found⟩ := h.target u d (by simpa [World.signal, e] using hd)
      exact ⟨m', by simpa [World.signal, e] using hm', found⟩
  · rcases List.mem_append.mp ho with old | new
    · exact h.outputs o old m' hm'
    · obtain rfl := List.mem_singleton.mp new
      obtain rfl := Option.some.inj hm'
      exact ⟨h.known m (.inr ⟨t, hm⟩), exact'⟩

theorem Books.signalLocal (h : Books w) {isHandler : Comp → Bool} {c : Comp} {q : Request} :
    Books (w.signal isHandler t c q none) := by
  have lists : (w.signal isHandler t c q none).lists = w.lists := by
    funext b
    cases b <;> simp [World.lists, World.signal]
  refine ⟨h.position, h.impl, h.ready, h.ids, h.known, h.source, ?_, h.unsent, h.handled,
    h.here, h.target, fun o ho m hm => ?_, h.results⟩
  · rw [lists]
    exact h.placed
  · rcases List.mem_append.mp ho with old | new
    · exact h.outputs o old m hm
    · obtain rfl := List.mem_singleton.mp new
      cases hm

end Steps

end Lcw.Gex
