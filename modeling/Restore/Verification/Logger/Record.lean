import Restore.Model.Logger
import Restore.Verification.Gzip.Record

/-! # Loggers with a record of the calls of `deflate`

A run with the record is the run without it, with the record added. -/

namespace Restore.Logger

open BuffRing Pcap Gzip

variable {Z : Type*}

def Env.recorded (env : Env Z) : Env (Z × List DeflateCall) :=
  ⟨env.zlib.recorded, env.reserve, env.strftime, env.fopen⟩

namespace BasicBusinessLogger

def forget (l : BasicBusinessLogger (Z × List DeflateCall)) : BasicBusinessLogger Z :=
  { l with gipHelper := l.gipHelper.forget }

variable (env : Env Z) (l : BasicBusinessLogger (Z × List DeflateCall))

theorem makeCsvLog_forget (packet : PcapPacket) :
    (l.makeCsvLog env.recorded packet).forget = l.forget.makeCsvLog env packet := by
  have hupdate : (l.forget.gipHelper.compressUpdate env.zlib (bytesOf (csvLine packet))).1 =
      (l.gipHelper.compressUpdate env.recorded.zlib (bytesOf (csvLine packet))).1.forget :=
    (GzipHelper.compressUpdate_forget _).symm
  have hmode : l.forget.compressType = l.compressType := rfl
  rw [makeCsvLog, makeCsvLog, hupdate, hmode]
  split <;> rfl

theorem outputFile_forget : (l.outputFile env.recorded).forget = l.forget.outputFile env := by
  have hfinish : (l.forget.gipHelper.compressFinish env.zlib).1 =
      (l.gipHelper.compressFinish env.recorded.zlib).1.forget :=
    GzipHelper.compressFinish_forget.symm
  have hmode : l.forget.compressType = l.compressType := rfl
  rw [outputFile, outputFile, hfinish, hmode]
  split <;> rfl

theorem drainOne_forget (packet : PcapPacket) :
    (l.drainOne env.recorded packet).forget = l.forget.drainOne env packet := by
  have hfull : l.forget.full = l.full := rfl
  rw [drainOne, drainOne, makeCsvLog_forget, hfull]
  congr 1
  split
  · rw [← outputFile_forget]
    rfl
  · rfl

theorem foldl_drainOne_forget (packets : List PcapPacket) :
    (packets.foldl (drainOne env.recorded) l).forget =
      packets.foldl (drainOne env) l.forget := by
  induction packets generalizing l with
  | nil => rfl
  | cons packet packets ih => rw [List.foldl_cons, List.foldl_cons, ih, drainOne_forget]

theorem drain_forget (now : ℕ) (isTimeOut : Bool) (packets : List PcapPacket) :
    (l.drain env.recorded now isTimeOut packets).forget =
      l.forget.drain env now isTimeOut packets := by
  let drained := packets.foldl (drainOne env.recorded)
    (getFileGenTime env.recorded { l with serialCnt := 0 } now)
  have hrounds : packets.foldl (drainOne env)
      (getFileGenTime env { l.forget with serialCnt := 0 } now) = drained.forget :=
    (foldl_drainOne_forget env
      (getFileGenTime env.recorded { l with serialCnt := 0 } now) packets).symm
  have hdrain : l.forget.drain env now isTimeOut packets =
      if isTimeOut && drained.forget.serialCnt == 0 then outputFile env drained.forget
      else drained.forget := by
    rw [← hrounds]
    rfl
  rw [hdrain, ← outputFile_forget]
  exact apply_ite forget (_ = true) _ _

theorem pushBack_forget (packet : PcapPacket) :
    (l.pushBack packet).map (fun r => (r.1.forget, r.2)) = l.forget.pushBack packet := by
  have hring : l.forget.data = l.data := rfl
  rw [pushBack, pushBack, hring]
  split <;> rfl

theorem collect_forget (fresh : ℕ → PcapPacket) (clock : Clock) :
    (l.collect fresh clock).map (fun r => (r.1.forget, r.2)) = l.forget.collect fresh clock := by
  have htimeOut : l.forget.timeOut clock.uptime = l.timeOut clock.uptime := rfl
  have hnearlyFull : l.forget.nearlyFull = l.nearlyFull := rfl
  have hring : l.forget.data = l.data := rfl
  unfold collect
  rw [htimeOut]
  cases l.timeOut clock.uptime with
  | false =>
      simp only [Bool.false_or, Bool.false_eq_true, if_false, hnearlyFull, hring]
      split
      · cases doDequeue l.data.1 l.data.2 fresh kVectorThreshold <;> rfl
      · rfl
  | true =>
      simp only [Bool.true_or, if_true, hring]
      cases doDequeue l.data.1 l.data.2 fresh kVectorThreshold <;> rfl

theorem checkRotateCounted_forget (fresh : ℕ → PcapPacket) (clock : Clock) :
    (l.checkRotateCounted env.recorded fresh clock).map forget =
      l.forget.checkRotateCounted env fresh clock := by
  rw [checkRotateCounted, checkRotateCounted, ← collect_forget]
  cases l.collect fresh clock with
  | error fault => rfl
  | ok r => exact congrArg Except.ok (drain_forget env r.1 _ _ _)

/-- One step with the record is one step without it. -/
theorem step_forget (fresh : ℕ → PcapPacket) (e : Event) :
    (l.step env.recorded fresh e).map forget = l.forget.step env fresh e := by
  cases e with
  | pushBack packet =>
      rw [step, step, ← pushBack_forget]
      cases l.pushBack packet <;> rfl
  | checkRotate clock => exact checkRotateCounted_forget env l fresh clock

theorem run_forget (fresh : ℕ → PcapPacket) (es : List Event) :
    (l.run env.recorded fresh es).map forget = l.forget.run env fresh es := by
  induction es generalizing l with
  | nil => rfl
  | cons e es ih =>
      rw [run, run, ← step_forget]
      cases l.step env.recorded fresh e with
      | error fault => rfl
      | ok l' => exact ih l'

theorem init_forget (fuel : ℕ) (filePath : List Char) (rotateSize rotateCycle : UInt32)
    (compressType : UInt8) (uptime uptime' : ℕ) (fresh : ℕ → PcapPacket) (storage : ℕ → UInt8)
    (gipHelper : GzipHelper (Z × List DeflateCall)) :
    (init env.recorded fuel filePath rotateSize rotateCycle compressType uptime uptime' fresh
        storage gipHelper).map forget =
      init env fuel filePath rotateSize rotateCycle compressType uptime uptime' fresh storage
        gipHelper.forget := by
  unfold init
  rw [Option.map_map]
  congr 1
  funext data
  dsimp only [Function.comp_apply]
  split <;> rfl

theorem Reachable.forget {env : Env Z} {l : BasicBusinessLogger (Z × List DeflateCall)}
    {fresh : ℕ → PcapPacket} (h : Reachable env.recorded fresh l) :
    Reachable env fresh l.forget := by
  induction h with
  | init h => exact .init ((init_forget env ..).symm.trans (congrArg (Option.map _) h))
  | step _ e hstep ih =>
      exact ih.step e ((step_forget env ..).symm.trans (congrArg (Except.map _) hstep))

end BasicBusinessLogger

end Restore.Logger
