import Rpsl.Irrd.Proof.Frame
import Rpsl.Irrd.Proof.Server

/-!
# A connection as a conversation

What `handle` does to a connection is what a server does that takes whole lines off the client's
bytes and writes each answer at once (`handle_talk`): chunks, buffers and flushes do not show.
Answers are held back only while a further line is buffered, so the server never waits for the
client with an answer unwritten; and a client that sends its queries without waiting reads the
answer of each in turn.
-/

namespace Rpsl.Irrd

open Text Lib Reader

variable {σ τ : Type} (lim : Limits) (doLine : τ → σ → Text → Reply × σ)

/-! ## Conversations -/

/-- The first line of `s` and what follows it, or the error a reader of lines no longer than `max`
meets. -/
def nextLine (max : Int) (s : Text) : Except LineError (Text × Text) :=
  let p := s.takeWhile (· ≠ '\n')
  if max < p.length then .error .tooLong
  else if s = [] then .error (.read .eof)
  else .ok (p, s.drop (p.length + 1))

theorem takeWhile_newline {p : Text} (hp : '\n' ∉ p) (t : Text) :
    (p ++ t).takeWhile (· ≠ '\n') = p ++ t.takeWhile (· ≠ '\n') := by
  refine List.takeWhile_append_of_pos fun c hc => decide_eq_true ?_
  rintro rfl
  exact hp hc

theorem LineRead.next {max : Int} {s left : Text} {res : Except LineError Text}
    (h : LineRead max s res left) : nextLine max s = res.map (·, left) := by
  cases h with
  | @whole p _ hp hlen =>
    have hline : (p ++ '\n' :: left).takeWhile (· ≠ '\n') = p := by
      rw [takeWhile_newline hp]
      simp
    have hdrop : (p ++ '\n' :: left).drop (p.length + 1) = left := by simp
    simp only [nextLine, hline, hdrop, Int.not_lt.2 hlen, if_false]
    exact if_neg (by simp)
  | last hp hne hlen =>
    have hself := takeWhile_newline hp []
    rw [List.append_nil, List.takeWhile_nil, List.append_nil] at hself
    simp only [nextLine, hself, Int.not_lt.2 hlen, if_false, if_neg hne]
    rw [List.drop_eq_nil_iff.2 (Nat.le_succ _)]
    rfl
  | @tooLong c p _ hc hp hlen =>
    obtain ⟨t, rfl⟩ := hp
    rw [← List.append_assoc, nextLine, takeWhile_newline hc]
    exact if_pos (by rw [List.length_append]; omega)
  | eof hmax => exact if_neg (Int.not_lt.2 hmax)

/-- What the client sent that is still to be read, what was written, and the session. -/
structure Talk (σ : Type) where
  rest : Text
  out : Text
  sess : σ
  status : Status

namespace Talk

def new (s : Text) (sess : σ) : Talk σ := ⟨s, [], sess, .serving⟩

def close (k : Talk σ) (status : Status) : Talk σ := { k with rest := [], status := status }

def answer (r : Reply) (k : Talk σ) : Talk σ :=
  let k := { k with out := k.out ++ r.text }
  if r.close then k.close .ended else k

/-- One line and its answer. -/
def turn (k : Talk σ) : Turn τ → Talk σ
  | .stop => k.close .ended
  | .line at' outcome =>
    match nextLine lim.maxLine k.rest with
    | .error .tooLong => close { k with out := k.out ++ lim.lineTooLong } .ended
    | .error (.read _) => k.close .ended
    | .ok (line, rest) =>
      let (r, sess) := doLine at' k.sess line
      let k := { k with rest := rest, sess := sess }
      match outcome with
      | .inTime => k.answer r
      | .late => k.answer (r.refused lim.tookLonger)
      | .abandoned => k.close .abandoned

def handle (k : Talk σ) (ts : List (Turn τ)) : Talk σ :=
  ts.foldl (fun k t => if k.status = .serving then k.turn lim doLine t else k) k

end Talk

/-! ## Refinement -/

namespace Writer

variable (w : Writer) (t : Text)

/-- All that was written. -/
def all : Text := w.sent ++ w.held

theorem all_write : (w.write t).all = w.all ++ t := by
  rw [all, write, List.append_assoc, List.take_append_drop, ← List.append_assoc, all]

theorem all_flush : w.flush.all = w.all := by
  rw [all, flush, List.append_nil, all]

end Writer

namespace Conn

/-- The conversation a connection shows. -/
def talk (c : Conn σ) : Talk σ :=
  ⟨if c.status = .serving then c.br.content else [], c.w.all, c.sess, c.status⟩

structure Ok (c : Conn σ) : Prop where
  inv : c.br.Inv
  ended : c.status = .ended → c.w.held = []
  waiting : c.status = .serving → lineBuffered c.br = false → c.w.held = []

theorem finish_spec {c : Conn σ} (hb : c.br.Inv) :
    c.finish.Ok ∧ c.finish.talk = c.talk.close .ended := by
  refine ⟨⟨hb, fun _ => rfl, fun h => Status.noConfusion h⟩, ?_⟩
  rw [talk, finish, Writer.all_flush]
  rfl

theorem answer_spec (r : Reply) {br : Reader Char} (w : Writer) (sess : σ) (hb : br.Inv) :
    (answer r ⟨br, w, sess, .serving⟩).Ok ∧
      (answer r ⟨br, w, sess, .serving⟩).talk = (talk ⟨br, w, sess, .serving⟩).answer r := by
  obtain ⟨w', hw, hall, hheld⟩ : ∃ w', (if r.close || !lineBuffered br then (w.write r.text).flush
      else w.write r.text) = w' ∧ w'.all = w.all ++ r.text ∧
      (lineBuffered br = false → w'.held = []) := by
    split_ifs with hflush
    · exact ⟨_, rfl, by rw [Writer.all_flush, Writer.all_write], fun _ => rfl⟩
    · refine ⟨_, rfl, w.all_write _, fun hnone => absurd ?_ hflush⟩
      rw [hnone, Bool.not_false, Bool.or_true]
  unfold answer Talk.answer
  dsimp only
  rw [hw]
  split_ifs with hclose
  · obtain ⟨hok, htalk⟩ := finish_spec (c := ⟨br, w', sess, .serving⟩) hb
    exact ⟨hok, by rw [htalk, talk, hall]; rfl⟩
  · exact ⟨⟨hb, fun h => Status.noConfusion h, fun _ => hheld⟩, by rw [talk, hall]; rfl⟩

theorem turn_spec {c : Conn σ} (hok : c.Ok) (hserving : c.status = .serving) (t : Turn τ) :
    (c.turn lim doLine t).Ok ∧ (c.turn lim doLine t).talk = c.talk.turn lim doLine t := by
  rcases c with ⟨br, w, sess, status⟩
  cases hserving
  cases t with
  | stop => exact finish_spec hok.inv
  | line at' outcome =>
    have htaken := readLine_spec lim.maxLine hok.inv
    have hrest : (talk ⟨br, w, sess, .serving⟩).rest = br.content := rfl
    unfold turn Talk.turn
    dsimp only
    rw [hrest]
    rcases hres : readLine lim.maxLine br with ⟨res, br'⟩
    rw [hres] at htaken
    have hinv : br'.Inv := htaken.inv
    have hread : LineRead lim.maxLine br.content res br'.content := htaken.read
    rw [hread.next]
    cases res with
    | error e =>
      cases e with
      | tooLong =>
        obtain ⟨hok', htalk⟩ := finish_spec
          (c := ⟨br', w.write lim.lineTooLong, sess, .serving⟩) hinv
        refine ⟨hok', htalk.trans ?_⟩
        rw [talk, Writer.all_write]
        rfl
      | read e => exact finish_spec (c := ⟨br', w, sess, .serving⟩) hinv
    | ok line =>
      cases outcome with
      | inTime => exact answer_spec _ w _ hinv
      | late => exact answer_spec _ w _ hinv
      | abandoned =>
        exact ⟨⟨hinv, fun h => Status.noConfusion h, fun h => Status.noConfusion h⟩, rfl⟩

theorem handle_spec {c : Conn σ} (hok : c.Ok) (ts : List (Turn τ)) :
    (c.handle lim doLine ts).Ok ∧
      (c.handle lim doLine ts).talk = c.talk.handle lim doLine ts := by
  induction ts generalizing c with
  | nil => exact ⟨hok, rfl⟩
  | cons t ts ih =>
    have hstatus : c.talk.status = c.status := rfl
    rw [handle, List.foldl_cons, Talk.handle, List.foldl_cons, hstatus]
    split_ifs with hserving
    · obtain ⟨hok', htalk⟩ := turn_spec lim doLine hok hserving t
      rw [← htalk]
      exact ih hok'
    · exact ih hok

theorem ok_new (d : Delivery Char) (sess : σ) : (Conn.new d sess).Ok :=
  ⟨inv_new d _, fun h => Status.noConfusion h, fun _ _ => rfl⟩

/-- **A connection shows a conversation.** However the client's bytes are delivered and whenever
the server is stopped, what was written, sent or held back, is the answers of the conversation in
their order; and when the connection has ended all of it was sent. -/
theorem handle_talk (d : Delivery Char) (sess : σ) (ts : List (Turn τ)) :
    let c := (Conn.new d sess).handle lim doLine ts
    let k := (Talk.new d.elems sess).handle lim doLine ts
    c.talk = k ∧ (c.status = .ended → c.w.sent = k.out) := by
  obtain ⟨hok, htalk⟩ := handle_spec lim doLine (ok_new d sess) ts
  refine ⟨htalk, fun hended => ?_⟩
  rw [show (Talk.new d.elems sess) = (Conn.new d sess).talk from rfl, ← htalk]
  show _ = Writer.all _
  rw [Writer.all, hok.ended hended, List.append_nil]

theorem readLine_buffered {br : Reader Char} (hb : br.Inv) (max : Int)
    (h : lineBuffered br = true) : (readLine max br).2.rd = br.rd := by
  rw [lineBuffered, peek_buffered hb] at h
  obtain ⟨i, hi⟩ := Option.isSome_iff_exists.1 h
  rw [readLine]
  unfold readLineFrom
  rw [peek_buffered hb]
  dsimp only at hi ⊢
  rw [List.drop_zero, hi]
  dsimp only
  split_ifs <;> rfl

/-- **The server never waits with an answer unwritten**: whatever the client sent and whatever the
turns before, a call of `readLine` that reads from the connection finds nothing held back. -/
theorem handle_never_waits (d : Delivery Char) (sess : σ) (ts : List (Turn τ)) :
    let c := (Conn.new d sess).handle lim doLine ts
    c.status = .serving → (readLine lim.maxLine c.br).2.rd ≠ c.br.rd → c.w.held = [] := by
  intro c hserving hreads
  obtain ⟨hok, -⟩ := handle_spec lim doLine (ok_new d sess) ts
  refine hok.waiting hserving (Bool.eq_false_iff.2 fun h => hreads ?_)
  exact readLine_buffered hok.inv _ h

end Conn

/-! ## Client and server -/

section

variable (ask : τ → σ → Text → Query × σ)

/-- A session that answers each line with the reply of a query and stays open. -/
def answering (at' : τ) (sess : σ) (line : Text) : Reply × σ :=
  (⟨(ask at' sess line).1.reply, false⟩, (ask at' sess line).2)

/-- The queries that lines make one after the other, each at its moment. -/
def asked : List (τ × Text) → σ → List Query
  | [], _ => []
  | x :: xs, sess => (ask x.1 sess x.2).1 :: asked xs (ask x.1 sess x.2).2

/-- The lines as they are sent. -/
def sentLines (xs : List (τ × Text)) : Text := xs.flatMap fun x => x.2 ++ ['\n']

theorem handle_lines {xs : List (τ × Text)}
    (hxs : ∀ x ∈ xs, '\n' ∉ x.2 ∧ x.2.length ≤ lim.maxLine) (last : τ) (out : Text) (sess : σ) :
    let k := Talk.handle lim (answering ask) ⟨sentLines xs, out, sess, .serving⟩
      (xs.map (fun x => .line x.1 .inTime) ++ [.line last .inTime])
    k.out = out ++ (asked ask xs sess).flatMap Query.reply ∧ k.status = .ended := by
  induction xs generalizing out sess with
  | nil =>
    refine ⟨(List.append_nil out).symm, rfl⟩
  | cons x xs ih =>
    obtain ⟨hx, hxs⟩ := List.forall_mem_cons.1 hxs
    have hnext : nextLine lim.maxLine (sentLines (x :: xs)) = .ok (x.2, sentLines xs) := by
      rw [sentLines, List.flatMap_cons, List.append_assoc, List.singleton_append]
      exact (LineRead.whole hx.1 (by omega)).next
    have hturn : Talk.turn lim (answering ask) ⟨sentLines (x :: xs), out, sess, .serving⟩
        (.line x.1 .inTime) = ⟨sentLines xs, out ++ (ask x.1 sess x.2).1.reply,
          (ask x.1 sess x.2).2, .serving⟩ := by
      unfold Talk.turn
      dsimp only
      rw [hnext]
      rfl
    obtain ⟨hout, hstatus⟩ := ih hxs (out ++ (ask x.1 sess x.2).1.reply) (ask x.1 sess x.2).2
    rw [List.map_cons, List.cons_append, Talk.handle, List.foldl_cons, if_pos rfl, hturn]
    refine ⟨hout.trans ?_, hstatus⟩
    rw [asked, List.flatMap_cons, List.append_assoc]

/-- **A pipelining client gets its answers.** A client that sends its lines at once, however they
are delivered, and reads what the server sent, however that is delivered, gets for each line in
turn what the query it makes of the session is to give. -/
theorem session_round_trip (xs : List (τ × Text))
    (hxs : ∀ x ∈ xs, '\n' ∉ x.2 ∧ x.2.length ≤ lim.maxLine) (last : τ) (sess : σ)
    (d : Delivery Char) (hd : d.elems = sentLines xs) (max : Int64)
    (hmax : ∀ q ∈ asked ask xs sess, q.payload.length ≤ max.toInt) (room : List Nat → Nat)
    (hroom : ∀ lens, 0 < room lens) (size : Nat) :
    let c := (Conn.new d sess).handle lim (answering ask)
      (xs.map (fun x => .line x.1 .inTime) ++ [.line last .inTime])
    c.status = .ended ∧ ∀ back : Delivery Char, back.elems = c.w.sent →
      (readFrames room max (asked ask xs sess).length (Reader.new back size)).1 =
        (asked ask xs sess).map Query.result := by
  intro c
  obtain ⟨hok, htalk⟩ := Conn.handle_spec lim (answering ask) (Conn.ok_new d sess)
    (xs.map (fun x => .line x.1 .inTime) ++ [.line last .inTime])
  obtain ⟨hout, hstatus⟩ := handle_lines lim ask hxs last [] sess
  have hnew : (Conn.new d sess).talk = ⟨sentLines xs, [], sess, .serving⟩ := by
    rw [← hd]
    rfl
  rw [hnew] at htalk
  have hended : c.status = .ended := (congrArg Talk.status htalk).trans hstatus
  have hsent : c.w.sent = (asked ask xs sess).flatMap Query.reply := by
    have hall : c.w.all = _ := (congrArg Talk.out htalk).trans hout
    rwa [Writer.all, hok.ended hended, List.append_nil, List.nil_append] at hall
  refine ⟨hended, fun back hback => ?_⟩
  have hframes := readFrames_spec hroom hmax (inv_new back size) (hback.trans hsent) le_rfl
  rw [hframes.1, List.take_length]

end

/-- Two lines, sent at once to a session that echoes them. -/
def twoLines : List (Unit × Text) := [((), lit "!gAS1"), ((), lit "!gAS2")]

def echo (_ : Unit) (n : Nat) (line : Text) : Query × Nat := (⟨0, [.add [line]]⟩, n + 1)

def twoLinesSent (idle : Fin 100) : Text :=
  ((Conn.new ⟨[⟨idle, '!', (sentLines twoLines).tail⟩], idle, true⟩ 0).handle ⟨100, lit "1m0s"⟩
    (answering echo) (twoLines.map (fun x => .line x.1 .inTime) ++ [.line () .inTime])).w.sent

theorem session_twoLines :
    (readFrames (fun _ => 512) 100 2
      (Reader.new ⟨(twoLinesSent 0).map (⟨0, ·, []⟩), 0, false⟩ 4096)).1 =
        [.ok (lit "!gAS1"), .ok (lit "!gAS2")] := by
  have hback : (⟨(twoLinesSent 0).map (⟨0, ·, []⟩), 0, false⟩ : Delivery Char).elems =
      twoLinesSent 0 := by
    simp [Delivery.elems, Chunk.elems, List.flatMap_map]
  have hread := session_round_trip ⟨100, lit "1m0s"⟩ echo twoLines (by decide +kernel) () 0
    ⟨[⟨0, '!', (sentLines twoLines).tail⟩], 0, true⟩ (by decide +kernel) 100 (by decide +kernel)
    (fun _ => 512) (fun _ => by decide) 4096
  exact (hread.2 _ hback).trans (by decide +kernel)

/-- The same two lines, the second of them sent later. -/
def apart (idle : Fin 100) : Delivery Char :=
  ⟨[⟨idle, '!', lit "gAS1\n"⟩, ⟨idle, '!', lit "gAS2\n"⟩], idle, true⟩

theorem apart_never_waits :
    let c := (Conn.new (apart 0) 0).handle ⟨100, lit "1m0s"⟩ (answering echo) [.line () .inTime]
    c.w.sent ≠ [] ∧ c.w.held = [] := by
  refine ⟨by decide +kernel, ?_⟩
  refine Conn.handle_never_waits _ _ (apart 0) 0 _ (by decide +kernel) fun h => ?_
  exact absurd (congrArg (·.chunks.length) h) (by decide +kernel)

end Rpsl.Irrd
