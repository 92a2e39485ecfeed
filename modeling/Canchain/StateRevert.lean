import Canchain.StateRuns
import Canchain.Keccak

/-!
Reverting to a snapshot, seen through the getters. In a run that revives no
deleted object, whatever is done after a snapshot is taken back by reverting to
it; a commit that writes a deleted object again breaks this.
-/
namespace Canchain.StateRevert
open Rlp Common State State.StateDB Worlds StateView
open StateRefines StateRuns Runs

/-- What the getters return. -/
@[ext] structure Observation where
  exist : Address → Bool
  hasSuicided : Address → Bool
  balance : Address → Int
  nonce : Address → UInt64
  code : Address → Option Bytes
  codeHash : Address → Hash
  codeSize : Address → Nat
  state : Address → Hash → Hash
  committedState : Address → Hash → Hash
  refund : UInt64
  logs : Hash → List Log
  logSize : UInt64
  preimages : Hash → Option Bytes
variable {ops : List Op} {cmds : List Cmd}

section
variable {keccak : Bytes → Hash} {s s' : StateDB} {k k' : Copies} {w : World} {id : Nat} {before : List (Nat × World)}

variable (keccak) in
def observe (s : StateDB) : Observation where
  exist a := (s.exist keccak a).1
  hasSuicided a := (s.hasSuicided keccak a).1
  balance a := (s.getBalance keccak a).1
  nonce a := (s.getNonce keccak a).1
  code a := (s.getCode keccak a).1
  codeHash a := (s.getCodeHash keccak a).1
  codeSize a := (s.getCodeSize keccak a).1
  state a key := (s.getState keccak a key).1
  committedState a key := (s.getCommittedState keccak a key).1
  refund := s.refund
  logs := s.logs
  logSize := s.logSize
  preimages := s.preimages

/-- The getters see the view and nothing else. -/
theorem observe_congr (shown : view keccak s = view keccak s') : observe keccak s = observe keccak s' := by
  have same {α : Type} (a : Address) (absent : α) {f f' : StateObject → α × StateObject} (g : Acct → α)
      (value : ∀ o, (f o).1 = g (acctOf keccak s.db o)) (value' : ∀ o, (f' o).1 = g (acctOf keccak s'.db o)) :
      (s.read keccak a absent f).1 = (s'.read keccak a absent f').1 := by
    rw [read_shown a absent value,read_shown a absent value',shown]
  apply Observation.ext
  · exact funext fun a => same a _ (fun _ => true) (fun _ => rfl) fun _ => rfl
  · exact funext fun a => same a _ Acct.suicided (fun _ => rfl) fun _ => rfl
  · exact funext fun a => same a _ Acct.balance (fun _ => rfl) fun _ => rfl
  · exact funext fun a => same a _ Acct.nonce (fun _ => rfl) fun _ => rfl
  · exact funext fun a => same a _ Acct.code (fun o => loadCode_value o) fun o => loadCode_value o
  · exact funext fun a => same a _ Acct.codeHash (fun _ => rfl) fun _ => rfl
  · exact funext fun a => same a _ Acct.codeSize (fun _ => rfl) fun _ => rfl
  · exact funext fun a => funext fun key => same a _ (fun x => x.storage key) (fun o => getState_value o key) fun o => getState_value o key
  · exact funext fun a => funext fun key => same a _ (fun x => x.committed key) (fun o => getCommittedState_value o key) fun o => getCommittedState_value o key
  · exact congrArg World.refund shown
  · exact congrArg World.logs shown
  · exact congrArg World.logSize shown
  · exact congrArg World.preimages shown

/-- The copy is kept, after older ones. -/
def Keeps (before : List (Nat × World)) (id : Nat) (w : World) (k : Copies) : Prop :=
  (∀ c ∈ before, c.1 < id) ∧ ∃ rest, k.saved = before ++ (id,w) :: rest

/-- The search passes the older copies. -/
theorem Keeps.findIdx {revid : Nat} {rest : List (Nat × World)} (older : ∀ c ∈ before, c.1 < id) (from_ : id ≤ revid) :
    (before ++ (id,w) :: rest).findIdx (fun c => c.1 ≥ revid) =
      ((id,w) :: rest).findIdx (fun c => c.1 ≥ revid) + before.length := by
  induction before with
  | nil => simp
  | cons c before ih =>
    have low : c.1 < id := older c List.mem_cons_self
    have passed : ¬ c.1 ≥ revid := by omega
    rw [List.cons_append,List.findIdx_cons,decide_eq_false passed,List.length_cons,cond_false,
      ih fun c member => older c (List.mem_cons_of_mem _ member)]
    omega
theorem Keeps.exec {c : Cmd} {reply : c.Reply} (keeps : Keeps before id w k)
    (later : ∀ revid, c = .revertToSnapshot revid → id < revid) (done : k.exec keccak c = .ok (reply,k')) :
    Keeps before id w k' := by
  obtain ⟨older,rest,saved⟩ := keeps
  refine ⟨older,?_⟩
  cases c with
  | snapshot =>
    cases done
    exact ⟨rest ++ [(k.nextId,k.world)],by simp [saved]⟩
  | revertToSnapshot revid =>
    have after := later revid rfl
    obtain ⟨k₁,reverted,⟨⟩⟩ := map_ok.mp done
    unfold Copies.revertToSnapshot at reverted
    rw [saved,Keeps.findIdx older (by omega)] at reverted
    have passes : ((id,w) :: rest).findIdx (fun c => c.1 ≥ revid) = rest.findIdx (fun c => c.1 ≥ revid) + 1 := by
      rw [List.findIdx_cons]
      simp [show ¬ revid ≤ id by omega]
    simp only [passes] at reverted
    repeat' split at reverted
    all_goals cases reverted
    refine ⟨rest.take (rest.findIdx (fun c => c.1 ≥ revid)),?_⟩
    show List.take _ (before ++ (id,w) :: rest) = _
    simp [List.take_append,show rest.findIdx (fun c => decide (c.1 ≥ revid)) + 1 + before.length - before.length =
      rest.findIdx (fun c => decide (c.1 ≥ revid)) + 1 by omega]
  | subRefund gas =>
    simp only [Copies.exec] at done
    split at done
    · cases done
    · cases done
      exact ⟨rest,saved⟩
  | _ =>
    cases done
    exact ⟨rest,saved⟩
/-- Reverting to the snapshot gives its copy. -/
theorem Keeps.revert (keeps : Keeps before id w k) : k.revertToSnapshot id = .ok { k with world := w, saved := before } := by
  obtain ⟨older,rest,saved⟩ := keeps
  have here : k.saved.findIdx (fun c => c.1 ≥ id) = before.length := by
    rw [saved,Keeps.findIdx older (Nat.le_refl id),List.findIdx_cons]
    simp
  have found : k.saved[before.length]? = some (id,w) := by simp [saved]
  unfold Copies.revertToSnapshot
  simp only [here,found,ne_eq,not_true_eq_false,if_false]
  rw [saved,List.take_left]

/-- `New` over an empty database. -/
def start : StateDB := opened newDatabase Secure.empty
variable (keccak) in
/-- A command, for its effect. -/
def call (s : StateDB) (c : Cmd) : Except Failure (StateDB × Unit) := (s.exec keccak c).map fun r => (r.2,())

theorem run_sound {answers : List (Option Hash)} (ran : run (step keccak) start ops = .ok (s,answers))
    (possible : ∀ v ∈ visits (step keccak) start ops, Possible keccak v.1 v.2)
    (unrevived : ∀ v ∈ visits (step keccak) start ops, Unrevived v.1 v.2) : Sound keccak s :=
  run_keeps (Sound keccak) (fun s op => Possible keccak s op ∧ Unrevived s op)
    (fun _ _ _ _ sound allowed done => step_sound sound allowed.1 allowed.2 done) (opened_sound newDatabase Secure.empty 0) ops
    (fun v member => ⟨possible v member,unrevived v member⟩) ran
/-- What is done after a snapshot keeps its copy. -/
theorem calls_keep {done : List Unit} (sound : Sound keccak s) (keeps : Keeps before id w (standsFor keccak s))
    (nested : ∀ revid, .revertToSnapshot revid ∈ cmds → id < revid) (ran : run (call keccak) s cmds = .ok (s',done)) :
    Sound keccak s' ∧ Keeps before id w (standsFor keccak s') := by
  refine run_keeps (fun s => Sound keccak s ∧ Keeps before id w (standsFor keccak s))
    (fun _ c => ∀ revid, c = .revertToSnapshot revid → id < revid) ?_ ⟨sound,keeps⟩ cmds ?_ ran
  · rintro s c s' _ ⟨sound,keeps⟩ later done
    obtain ⟨⟨reply,s₁⟩,executed,⟨⟩⟩ := map_ok.mp done
    obtain ⟨stands,sound'⟩ := exec_follows sound c
    rw [executed] at stands
    exact ⟨(sound' reply s₁ executed).1,keeps.exec later stands.symm⟩
  · rintro v member revid same
    exact nested revid (same ▸ visits_mem member)

/-- Reverting to a snapshot restores everything that the getters showed when it
    was taken, in every run that revives no deleted object. -/
theorem revert_restores (keccak : Bytes → Hash) (ops : List Op) {s : StateDB} {answers : List (Option Hash)}
    (ran : run (step keccak) start ops = .ok (s,answers))
    (possible : ∀ v ∈ visits (step keccak) start ops, Possible keccak v.1 v.2)
    (unrevived : ∀ v ∈ visits (step keccak) start ops, Unrevived v.1 v.2)
    (cmds : List Cmd) (nested : ∀ revid, .revertToSnapshot revid ∈ cmds → s.snapshot.1 < revid)
    {s' : StateDB} {done : List Unit} (after : run (call keccak) s.snapshot.2 cmds = .ok (s',done)) :
    ∃ s'', s'.revertToSnapshot keccak s.snapshot.1 = .ok s'' ∧ observe keccak s'' = observe keccak s := by
  have sound := run_sound ran possible unrevived
  obtain ⟨stands,soundAfter⟩ := exec_follows sound .snapshot
  have soundSnapshot : Sound keccak s.snapshot.2 := (soundAfter s.snapshot.1 s.snapshot.2 rfl).1
  have stands : standsFor keccak s.snapshot.2 = (standsFor keccak s).snapshot.2 :=
    congrArg Prod.snd (Except.ok.inj stands)
  have keeps : Keeps (standsFor keccak s).saved s.snapshot.1 (view keccak s) (standsFor keccak s.snapshot.2) := by
    refine ⟨?_,[],?_⟩
    · intro c member
      obtain ⟨r,inside,rfl⟩ := List.mem_map.mp member
      exact sound.fresh r inside
    · rw [stands]
      rfl
  obtain ⟨sound',keeps'⟩ := calls_keep soundSnapshot keeps nested after
  obtain ⟨same,-⟩ := revertToSnapshot_spec sound' s.snapshot.1
  rw [keeps'.revert] at same
  obtain ⟨s'',reverted,shown⟩ := map_ok.mp same
  exact ⟨s'',reverted,observe_congr (congrArg Copies.world shown)⟩

end

/-! ### A deleted account that a commit writes again -/

open Keccak

def account : Address := bytesToAddress [0x0a]
def touchedOrder : Order := ⟨[account],[account],[],fun _ => []⟩
def finalisedOrder : Order := ⟨[],[account],[account],fun _ => []⟩
/-- An account is touched, deleted because it is empty, and committed. -/
def emptied (del : Bool) : List Op :=
  [.cmd (.addBalance account 0),.finalise true touchedOrder,.commit del finalisedOrder]
/-- The state after each of the first two steps. -/
def touched : StateDB := ((start.append (.createObjectChange account)).setStateObject (emptyObject keccak256 account)).append
  (.touchChange account)
def finalised : StateDB :=
  ((touched.deleteStateObject keccak256 (emptyObject keccak256 account)).setDirty account true).clearJournalAndRefund

theorem touched_step : start.addBalance keccak256 account 0 = touched := by
  have absent : find keccak256 start account = none := by
    rw [find_uncached rfl]
    simp [load,start,opened]
  have other : account ≠ ripemd := by decide
  simp [touched,addBalance,getOrNewStateObject,createObject,getStateObject_none absent,StateObject.empty,emptyObject,newObject,
    touch,other]
theorem finalised_step : touched.finalise keccak256 true touchedOrder = .ok finalised := by
  have there : touched.stateObjects account = some (emptyObject keccak256 account) := by
    simp [touched,append,setStateObject]
  have empty : (emptyObject keccak256 account).empty keccak256 = true := by
    simp [StateObject.empty,emptyObject,newObject]
  simp [finalise,finaliseObject,touchedOrder,there,empty,finalised,Except.map,bind,Except.bind,pure,Except.pure]
theorem emptied_visits (del : Bool) : visits (step keccak256) start (emptied del) =
    [(start,.cmd (.addBalance account 0)),(touched,.finalise true touchedOrder),(finalised,.commit del finalisedOrder)] := by
  have committed (s : StateDB) (op : Op) : visits (step keccak256) s [op] = [(s,op)] := by
    rw [visits]
    split <;> rfl
  rw [emptied,visits]
  simp only [step,exec,Except.map,touched_step]
  rw [visits]
  simp [step,Except.map,finalised_step,committed]
theorem enumerates_account {Present : Address → Prop} (here : Present account) (others : ∀ a, a ≠ account → ¬ Present a) :
    Enumerates [account] Present := by
  refine ⟨List.nodup_singleton account,fun a => List.mem_singleton.trans ⟨?_,?_⟩⟩
  · rintro rfl
    exact here
  · exact fun present => by_contra fun other => others a other present
/-- States in which the account has the only object. -/
theorem ranges_account {s : StateDB} {order : Order} {o : StateObject} (there : s.stateObjects account = some o)
    (others : ∀ a, a ≠ account → s.stateObjects a = none) (listed : order.objects = [account])
    (dirties : Enumerates order.dirties fun a => s.journal.dirties a ≠ 0)
    (flagged : Enumerates order.flagged fun a => s.stateObjectsDirty a = true)
    (slots : Enumerates (order.slots account) fun k => o.dirtyStorage k ≠ none) : Ranges s order ∧ Distinct keccak256 s := by
  have only (a : Address) (present : s.stateObjects a ≠ none) : a = account := by_contra fun other => present (others a other)
  refine ⟨⟨dirties,?_,flagged,fun a x here => ?_⟩,fun a b inA inB _ => (only a inA).trans (only b inB).symm⟩
  · rw [listed]
    exact enumerates_account (by simp [there]) fun a other present => present (others a other)
  · obtain rfl := only a (by simp [here])
    cases there.symm.trans here
    exact slots
theorem emptied_possible (del : Bool) : ∀ v ∈ visits (step keccak256) start (emptied del), Possible keccak256 v.1 v.2 := by
  rw [emptied_visits]
  simp only [List.mem_cons,List.not_mem_nil,or_false,forall_eq_or_imp,forall_eq]
  refine ⟨trivial,?_,?_⟩
  · refine ranges_account (o := emptyObject keccak256 account) (by simp [touched,append,setStateObject]) (fun a other => ?_) rfl
      (enumerates_account ?_ fun a other => ?_) ⟨List.nodup_nil,fun a => ?_⟩ ⟨List.nodup_nil,by simp [touchedOrder,emptyObject,newObject]⟩
    all_goals simp [*,touchedOrder,touched,append,setStateObject,Journal.append,Entry.dirtied,count,start,opened,newJournal]
  · refine ranges_account (o := { emptyObject keccak256 account with deleted := true }) ?_ (fun a other => ?_) rfl
      ⟨List.nodup_nil,fun a => ?_⟩ (enumerates_account ?_ fun a other => ?_) ⟨List.nodup_nil,by simp [finalisedOrder,emptyObject,newObject]⟩
    all_goals simp [*,finalisedOrder,finalised,clearJournalAndRefund,setDirty,deleteStateObject,setStateObject,touched,append,start,
      opened,newJournal]

/-- The snapshot, whether the account exists when it is taken, and whether it
    exists after reverting to it. -/
def existsAround (ops : List Op) (cmds : List Cmd) : Except Failure (Nat × Bool × Bool) := do
  let (s,_) ← run (step keccak256) start ops
  let (s',_) ← run (call keccak256) s.snapshot.2 cmds
  let s'' ← s'.revertToSnapshot keccak256 s.snapshot.1
  return (s.snapshot.1,(s.exist keccak256 account).1,(s''.exist keccak256 account).1)
theorem existsAround_ok {id : Nat} {before after : Bool}
    (computed : existsAround ops cmds = .ok (id,before,after)) : ∃ s answers s' done s'',
      run (step keccak256) start ops = .ok (s,answers) ∧ run (call keccak256) s.snapshot.2 cmds = .ok (s',done) ∧
      s'.revertToSnapshot keccak256 s.snapshot.1 = .ok s'' ∧ s.snapshot.1 = id ∧
      (observe keccak256 s).exist account = before ∧ (observe keccak256 s'').exist account = after := by
  unfold existsAround at computed
  obtain ⟨⟨s,answers⟩,ran,computed⟩ := bind_ok computed
  obtain ⟨⟨s',done⟩,called,computed⟩ := bind_ok computed
  obtain ⟨s'',reverted,computed⟩ := bind_ok computed
  simp only [pure,Except.pure,Except.ok.injEq,Prod.mk.injEq] at computed
  exact ⟨s,answers,s',done,s'',ran,called,reverted,computed⟩
/-- The commit writes the deleted account again, and reverting finds it there. -/
theorem revert_revived : ∃ s answers s' done s'', run (step keccak256) start (emptied false) = .ok (s,answers) ∧
    (∀ v ∈ visits (step keccak256) start (emptied false), Possible keccak256 v.1 v.2) ∧
    run (call keccak256) s.snapshot.2 [.addBalance account 1] = .ok (s',done) ∧
    s'.revertToSnapshot keccak256 s.snapshot.1 = .ok s'' ∧ observe keccak256 s'' ≠ observe keccak256 s := by
  have computed : existsAround (emptied false) [.addBalance account 1] = .ok (0,false,true) := by
    rw [existsAround,keccak_packed]
    decide +kernel
  obtain ⟨s,answers,s',done,s'',ran,called,reverted,-,before,after⟩ := existsAround_ok computed
  refine ⟨s,answers,s',done,s'',ran,emptied_possible false,called,reverted,fun same => ?_⟩
  rw [same,before] at after
  cases after
/-- With a commit that deletes empty accounts, the account stays deleted. -/
theorem revert_restores_emptied : ∃ s answers s' done s'', run (step keccak256) start (emptied true) = .ok (s,answers) ∧
    run (call keccak256) s.snapshot.2 [.addBalance account 1,.snapshot,.setNonce account 7,.revertToSnapshot 1] = .ok (s',done) ∧
    s'.revertToSnapshot keccak256 s.snapshot.1 = .ok s'' ∧ observe keccak256 s'' = observe keccak256 s := by
  have computed : existsAround (emptied true) [.addBalance account 1,.snapshot,.setNonce account 7,.revertToSnapshot 1] =
    .ok (0,false,false) := by
    rw [existsAround,keccak_packed]
    decide +kernel
  obtain ⟨s,answers,s',done,s'',ran,called,reverted,first,-⟩ := existsAround_ok computed
  obtain ⟨again,reverted',restored⟩ := revert_restores keccak256 (emptied true) ran (emptied_possible true) (by
      rw [emptied_visits]
      simp [Unrevived]) _ (by
      intro revid member
      rw [first]
      simp at member
      omega) called
  rw [reverted] at reverted'
  cases reverted'
  exact ⟨s,answers,s',done,s'',ran,called,reverted,restored⟩

end Canchain.StateRevert
