import Canchain.Runs
import Mathlib

/-!
The buffers of the light protocol, after `lcs/flowcontrol/control.go`: the server charges
the client's for what it serves, the client keeps an estimate. The cost is cut to the limit
where a request is admitted and not where it is subtracted, and a reply may come between the
client's test and its subtraction. Without such costs and replies the buffers hold (`buffers_hold`).
-/
namespace Canchain.FlowControl
open Runs UInt64

structure ServerParams where
  bufLimit : UInt64
  minRecharge : UInt64
def fcTimeConst : UInt64 := 1000000
def safetyMargin : UInt64 := 1000000
/-- `bufValue` or `bufEstimate`, with `lastTime`. -/
structure Buffer where
  value : UInt64
  lastTime : Int
def atMost (limit value : UInt64) : UInt64 := if value > limit then limit else value
/-- What `recalcBV` and `recalcBLE` do. -/
def recalc (params : ServerParams) (time : Int) (b : Buffer) : Buffer :=
  let dt : UInt64 := if time < b.lastTime then 0 else UInt64.ofInt (time - b.lastTime)
  ⟨atMost params.bufLimit (b.value + params.minRecharge*dt/fcTimeConst),time⟩
def recalcBV (params : ServerParams) (time : Int) (peer : Buffer) : Buffer := recalc params time peer
def recalcBLE (params : ServerParams) (time : Int) (peer : Buffer) : Buffer := recalc params time peer

/-- A message to the server: its costs, how much it asks for, when it is admitted and when it is
    served, and the `rcValue` that the manager gives then. -/
structure Request where
  baseCost : UInt64
  reqCost : UInt64
  reqCnt : UInt64
  maxCnt : UInt64
  accepted : Int
  processed : Int
  rcValue : UInt64
def Request.cost (r : Request) : UInt64 := r.baseCost + r.reqCnt*r.reqCost
/-- `reject` of `handleMsg`, with the buffer after `AcceptRequest`. -/
def reject (params : ServerParams) (r : Request) (peer : Buffer) : Bool × Buffer :=
  if r.reqCnt > r.maxCnt then (true,peer)
  else
    let peer := recalcBV params r.accepted peer
    (decide (atMost params.bufLimit r.cost > peer.value),peer)
def requestProcessed (params : ServerParams) (time : Int) (cost rcValue : UInt64) (peer : Buffer) : Buffer :=
  let peer := recalcBV params time peer
  let peer := recalcBV params time { peer with value := peer.value - cost }
  if rcValue < params.bufLimit ∧ params.bufLimit - rcValue > peer.value then { peer with value := params.bufLimit - rcValue }
  else peer

structure ServerNode extends Buffer where
  sumCost : UInt64
  pending : UInt64 → Option UInt64
/-- The wait and the node, or a panic. -/
def canSend (params : ServerParams) (now : Int) (maxCost : UInt64) (peer : ServerNode) : Option (UInt64 × ServerNode) :=
  let peer := { peer with toBuffer := recalcBLE params now peer.toBuffer }
  let maxCost := atMost params.bufLimit (maxCost + safetyMargin*params.minRecharge/fcTimeConst)
  if peer.value ≥ maxCost then some (0,peer)
  else if params.minRecharge = 0 then none
  else some ((maxCost - peer.value)*fcTimeConst/params.minRecharge,peer)
def queueRequest (reqID maxCost : UInt64) (peer : ServerNode) : ServerNode :=
  let sumCost := peer.sumCost + maxCost
  { peer with value := peer.value - maxCost, sumCost := sumCost, pending := Function.update peer.pending reqID (some sumCost) }
def gotReply (params : ServerParams) (now : Int) (reqID bv : UInt64) (peer : ServerNode) : ServerNode :=
  let bv := atMost params.bufLimit bv
  match peer.pending reqID with
  | none => peer
  | some sc =>
    let cc := peer.sumCost - sc
    ⟨⟨if bv > cc then bv - cc else 0,now⟩,peer.sumCost,Function.update peer.pending reqID none⟩

/-- Both ends, the costs that the client may queue as it need not wait, and the newest of them if the client has made no call
    since. -/
structure State where
  server : Buffer
  client : ServerNode
  ready : List UInt64
  asked : Option UInt64
inductive Op where
  | serve (r : Request)
  | canSend (now : Int) (maxCost : UInt64)
  | queueRequest (reqID maxCost : UInt64)
  | gotReply (now : Int) (reqID bv : UInt64)
inductive Stop where
  | dropped | panicked | notReady
def start (params : ServerParams) (now : Int) : State := ⟨⟨params.bufLimit,now⟩,⟨⟨params.bufLimit,now⟩,0,fun _ => none⟩,[],none⟩
/-- A request that is rejected costs the client its connection. -/
def step (params : ServerParams) (s : State) : Op → Except Stop (State × Unit)
  | .serve r =>
    let (rejected,server) := reject params r s.server
    if rejected then .error .dropped
    else .ok ({ s with server := requestProcessed params r.processed r.cost r.rcValue server },())
  | .canSend now maxCost =>
    match FlowControl.canSend params now maxCost s.client with
    | none => .error .panicked
    | some (wait,client) => .ok (⟨s.server,client,if wait = 0 then maxCost :: s.ready else s.ready,
        if wait = 0 then some maxCost else none⟩,())
  | .queueRequest reqID maxCost =>
    if maxCost ∈ s.ready then
      .ok (⟨s.server,FlowControl.queueRequest reqID maxCost s.client,s.ready.erase maxCost,none⟩,())
    else .error .notReady
  | .gotReply now reqID bv => .ok (⟨s.server,FlowControl.gotReply params now reqID bv s.client,s.ready,none⟩,())

def Bounded (params : ServerParams) (s : State) : Prop := s.server.value ≤ params.bufLimit ∧ s.client.value ≤ params.bufLimit
/-- The server's buffer when it is charged. -/
def recharged (params : ServerParams) (s : State) (r : Request) : UInt64 :=
  (recalcBV params r.processed (recalcBV params r.accepted s.server)).value
/-- A request takes its cost off the server's buffer, down to 0 or to what the manager leaves, and no subtraction makes a
    buffer larger. -/
def Charged (params : ServerParams) (s s' : State) : Op → Prop
  | .serve r => s'.server.value.toNat = max ((recharged params s r).toNat - r.cost.toNat) (params.bufLimit.toNat - r.rcValue.toNat) ∧
    recharged params s r - r.cost ≤ recharged params s r
  | .queueRequest _ _ => s'.client.value ≤ s.client.value
  | _ => True
def Right (params : ServerParams) (s : State) (op : Op) : Prop :=
  ∀ s', step params s op = .ok (s',()) → Bounded params s' ∧ Charged params s s' op
/-- A request costs no more than the limit, and it is queued right after the client was told not to wait, if the limit
    leaves room for the safety margin too. -/
def Fits (params : ServerParams) (s : State) : Op → Bool
  | .serve r => r.cost ≤ params.bufLimit
  | .queueRequest _ maxCost => s.asked = some maxCost ∧ maxCost.toNat + params.minRecharge.toNat ≤ params.bufLimit.toNat
  | _ => true
/-- The products of the source do not wrap around. -/
def ServerParams.Small (params : ServerParams) : Prop := params.bufLimit.toNat*10^6 < 2^64 ∧ params.minRecharge.toNat*10^6 < 2^64

private theorem sub_le_iff (a b : UInt64) : a - b ≤ a ↔ b ≤ a := by
  simp only [le_iff_toNat_le,UInt64.toNat_sub]
  have := a.toNat_lt
  have := b.toNat_lt
  omega
private theorem sub_toNat {a b : UInt64} (le : b ≤ a) : (a - b).toNat = a.toNat - b.toNat := UInt64.toNat_sub_of_le _ _ le
private theorem atMost_le (limit value : UInt64) : atMost limit value ≤ limit := by
  unfold atMost
  split
  · exact UInt64.le_refl _
  · next less => exact UInt64.not_lt.mp less
section
variable {params : ServerParams} {time now : Int} {maxCost cost bv rcValue reqID : UInt64} {peer : Buffer} {s s' : State}

private theorem recalc_again (value : UInt64) :
    recalc params time ⟨value,time⟩ = ⟨atMost params.bufLimit value,time⟩ := by
  have none : ofInt 0 = 0 := rfl
  simp [recalc,none]
private theorem requestProcessed_le : (requestProcessed params time cost rcValue peer).value ≤ params.bufLimit := by
  unfold requestProcessed
  dsimp only
  split
  · next more =>
    simp only [le_iff_toNat_le,sub_toNat (UInt64.le_of_lt more.1)]
    omega
  · exact atMost_le _ _
/-- A cost that the buffer covers. -/
private theorem requestProcessed_value (covers : cost ≤ (recalcBV params time peer).value) :
    (requestProcessed params time cost rcValue peer).value.toNat =
      max ((recalcBV params time peer).value.toNat - cost.toNat) (params.bufLimit.toNat - rcValue.toNat) := by
  have limited : (recalcBV params time peer).value ≤ params.bufLimit := atMost_le _ _
  have again (value : UInt64) : recalcBV params time { recalcBV params time peer with value := value } =
    ⟨atMost params.bufLimit value,time⟩ := recalc_again value
  unfold requestProcessed
  dsimp only
  rw [again]
  have := params.bufLimit.toNat_lt
  have := rcValue.toNat_lt
  simp only [atMost,gt_iff_lt,lt_iff_toNat_lt,le_iff_toNat_le] at covers limited ⊢
  split_ifs <;> simp only [UInt64.toNat_sub] at * <;> omega
/-- Time makes a buffer no smaller. -/
private theorem le_recalc (small : params.Small) (bounded : peer.value ≤ params.bufLimit) :
    peer.value ≤ (recalc params time peer).value := by
  unfold recalc
  dsimp only
  generalize params.minRecharge*_ = recharge
  have limit := small.1
  have most := recharge.toNat_lt
  have units : fcTimeConst.toNat = 10^6 := rfl
  simp only [atMost,gt_iff_lt,le_iff_toNat_le,lt_iff_toNat_lt] at bounded ⊢
  split
  · exact bounded
  · rw [UInt64.toNat_add,UInt64.toNat_div,units]
    omega

private theorem serve_ok {r : Request} (stepped : step params s (.serve r) = .ok (s',())) :
    atMost params.bufLimit r.cost ≤ (recalcBV params r.accepted s.server).value ∧
      s' = { s with server := requestProcessed params r.processed r.cost r.rcValue (recalcBV params r.accepted s.server) } := by
  simp only [step,reject] at stepped
  split at stepped
  · cases stepped
  · split at stepped
    · cases stepped
    · next admitted =>
      cases stepped
      exact ⟨by simpa using admitted,rfl⟩
/-- A client that need not wait has the cost: what is missing for the margin is less than the margin. -/
private theorem canSend_covers (small : params.Small) {peer peer' : ServerNode} (sent : canSend params now maxCost peer = some (0,peer'))
    (room : maxCost.toNat + params.minRecharge.toNat ≤ params.bufLimit.toNat) : maxCost ≤ peer'.value := by
  obtain ⟨limit,recharge⟩ := small
  have positive (zero : params.minRecharge.toNat = 0) : params.minRecharge = 0 := UInt64.toNat_inj.mp (zero.trans rfl)
  have units : fcTimeConst.toNat = 10^6 ∧ safetyMargin.toNat = 10^6 := ⟨rfl,rfl⟩
  have whole : (atMost params.bufLimit (maxCost + safetyMargin*params.minRecharge/fcTimeConst)).toNat =
      maxCost.toNat + params.minRecharge.toNat := by
    have sum : (maxCost + safetyMargin*params.minRecharge/fcTimeConst).toNat = maxCost.toNat + params.minRecharge.toNat := by
      rw [UInt64.toNat_add,UInt64.toNat_div,UInt64.toNat_mul,units.1,units.2,Nat.mod_eq_of_lt (a := 10^6*_) (by omega),
        Nat.mul_div_cancel_left _ (by decide),Nat.mod_eq_of_lt (by omega)]
    rw [atMost,if_neg,sum]
    rw [gt_iff_lt,lt_iff_toNat_lt,sum]
    omega
  simp only [canSend] at sent
  generalize atMost params.bufLimit _ = most at sent whole
  generalize recalcBLE params now peer.toBuffer = estimate at sent
  simp only [ge_iff_le,le_iff_toNat_le] at sent ⊢
  split_ifs at sent with enough none
  · cases sent
    dsimp only
    omega
  · obtain ⟨short,rfl⟩ := Prod.mk.inj (Option.some.inj sent)
    have fits : (most.toNat - estimate.value.toNat)*10^6 < 2^64 :=
      lt_of_le_of_lt (Nat.mul_le_mul_right _ (by omega)) limit
    have waits : UInt64.toNat _ = 0 := congrArg UInt64.toNat short
    rw [UInt64.toNat_div,UInt64.toNat_mul,UInt64.toNat_sub_of_le _ _ (le_iff_toNat_le.mpr (by omega)),units.1,
      Nat.mod_eq_of_lt fits,Nat.div_eq_zero_iff] at waits
    rcases waits with zero | less
    · exact absurd (positive zero) none
    · dsimp only
      omega
private theorem canSend_le {wait : UInt64} {peer peer' : ServerNode}
    (sent : canSend params now maxCost peer = some (wait,peer')) : peer'.value ≤ params.bufLimit := by
  simp only [canSend] at sent
  repeat' split at sent
  all_goals cases sent
  all_goals exact atMost_le _ _
private theorem gotReply_le {peer : ServerNode} (bounded : peer.value ≤ params.bufLimit) :
    (gotReply params now reqID bv peer).value ≤ params.bufLimit := by
  simp only [gotReply]
  split
  · exact bounded
  · split
    · next more =>
      have limited := atMost_le params.bufLimit bv
      simp only [le_iff_toNat_le,sub_toNat (UInt64.le_of_lt more)] at limited ⊢
      omega
    · exact UInt64.zero_le
/-- The buffers are within the limit, and a client that was just told not to wait has the cost. -/
def Good (params : ServerParams) (s : State) : Prop :=
  Bounded params s ∧ ∀ maxCost, s.asked = some maxCost → maxCost.toNat + params.minRecharge.toNat ≤ params.bufLimit.toNat →
    maxCost ≤ s.client.value
private theorem step_good (small : params.Small) {op : Op} (good : Good params s) (fits : Fits params s op)
    (stepped : step params s op = .ok (s',())) : Good params s' ∧ Charged params s s' op := by
  obtain ⟨bounded,covers⟩ := good
  cases op with
  | serve r =>
    have fits : r.cost ≤ params.bufLimit := of_decide_eq_true fits
    obtain ⟨admitted,rfl⟩ := serve_ok stepped
    rw [atMost,if_neg (UInt64.not_lt.mpr fits)] at admitted
    have covered : r.cost ≤ recharged params s r := UInt64.le_trans admitted (le_recalc small (atMost_le _ _))
    exact ⟨⟨⟨requestProcessed_le,bounded.2⟩,covers⟩,requestProcessed_value covered,(sub_le_iff _ _).mpr covered⟩
  | canSend now maxCost =>
    simp only [step] at stepped
    split at stepped
    · cases stepped
    · next wait client sent =>
      cases stepped
      refine ⟨⟨⟨bounded.1,canSend_le sent⟩,fun cost asked room => ?_⟩,trivial⟩
      by_cases none : wait = 0
      · cases (if_pos none).symm.trans asked
        rw [none] at sent
        exact canSend_covers small sent room
      · cases (if_neg none).symm.trans asked
  | queueRequest reqID maxCost =>
    obtain ⟨asked,room⟩ := of_decide_eq_true fits
    have less := (sub_le_iff s.client.value maxCost).mpr (covers maxCost asked room)
    simp only [step] at stepped
    split at stepped
    · cases stepped
      exact ⟨⟨⟨bounded.1,UInt64.le_trans less bounded.2⟩,fun _ asked => by cases asked⟩,less⟩
    · cases stepped
  | gotReply now reqID bv =>
    cases stepped
    exact ⟨⟨⟨bounded.1,gotReply_le bounded.2⟩,fun _ asked => by cases asked⟩,trivial⟩

end

/-- In a run of requests that fit, with a limit and a recharge below 2^64/10^6, every step is right; and a request that costs
    more than the limit is never served right. -/
theorem buffers_hold (params : ServerParams) (small : params.Small) (now : Int) (ops : List Op) :
    ((∀ v ∈ visits (step params) (start params now) ops, Fits params v.1 v.2) →
      ∀ v ∈ visits (step params) (start params now) ops, Right params v.1 v.2) ∧
    ∀ s r s', step params s (.serve r) = .ok (s',()) → Right params s (.serve r) → r.cost ≤ params.bufLimit := by
  constructor
  · have begun : Good params (start params now) := ⟨⟨UInt64.le_refl _,UInt64.le_refl _⟩,fun _ asked => by cases asked⟩
    have one (s : State) (op : Op) (good : Good params s) (fits : Fits params s op) :
        Right params s op ∧ ∀ s' answer, step params s op = .ok (s',answer) → Good params s' := by
      refine ⟨fun s' ok => ?_,fun s' _ ok => (step_good small good fits ok).1⟩
      obtain ⟨good',charged⟩ := step_good small good fits ok
      exact ⟨good'.1,charged⟩
    exact visits_right (Good params) one begun ops
  · intro s r s' stepped right
    exact UInt64.le_trans ((sub_le_iff _ _).mp (right s' stepped).2.2) (atMost_le _ _)
def sampleParams : ServerParams := ⟨300000000,50000⟩
def sampleOps : List Op :=
  [.canSend 0 1000000,.queueRequest 7 1000000,.serve ⟨150000,30000,2,192,1000,2000,299000000⟩,.gotReply 3000 7 299500000,
    .canSend 4000 299000000,.queueRequest 8 299000000]
/-- Two requests of a client, one of which the server serves. -/
theorem buffers_hold_queued : (run (step sampleParams) (start sampleParams 0) sampleOps).isOk ∧
    ∀ v ∈ visits (step sampleParams) (start sampleParams 0) sampleOps, Right sampleParams v.1 v.2 :=
  ⟨by decide +kernel,(buffers_hold sampleParams ⟨by decide,by decide⟩ 0 sampleOps).1 (by decide +kernel)⟩
/-- A request that costs twice the limit is admitted, and leaves the buffer full instead of empty. -/
theorem full_after_charge : (run (step ⟨100,1⟩) (start ⟨100,1⟩ 0) [.serve ⟨200,0,1,192,0,0,100⟩]).map (·.1.server.value) = .ok 100 := rfl

end Canchain.FlowControl
