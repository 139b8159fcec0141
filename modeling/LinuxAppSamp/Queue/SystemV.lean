import LinuxAppSamp.Foundations.Channel
import LinuxAppSamp.Foundations.Progress
import LinuxAppSamp.Messages.Reply

/-! # The queue of `msg_0send_rcv.c` and `msg_1thread_send_rcv.c`

Both programs take the System V queue of `ftok("mrecv", 'a')`, so all their processes share one that
outlives them. `main` of the first sends three messages and then receives for ever; the second has a
thread that sends five and one that looks with `msgctl` before it receives. Every `struct msgbuf` lies
on a stack and is never cleared.

* `messages_in_order`: nothing is lost, doubled or overtaken, each task does what it was started for,
  and every text arrives as it was sent.
-/

namespace LinuxAppSamp.Queue.SystemV
open Execution Net Memory Messages
set_option autoImplicit false
set_option maxHeartbeats 250000

/-! ## The programs -/

def sizeData : ℕ := 256

structure Msgbuf where
  mType : ℤ
  mData : Buffer sizeData

inductive Line
  | message (mType : ℤ) (text : List UInt8) -- message %d %s
  | recv (mType : ℤ) (text : List UInt8)    -- recv %d %s
  | startSend                               -- start send thread
  | sendMessage                             --   send message
  | endSend                                 -- end send thread
  | startRecv                               -- start recv thread
  deriving DecidableEq

/-- The points of `main` of `msg_0send_rcv.c`, of `send_func` and of `recv_func`, each with `msgdata`.
`crashed` is behind an access outside it. -/
inductive Point
  | strcpy (k : ℕ) (msgdata : Msgbuf)
  | msgsnd (k : ℕ) (msgdata : Msgbuf)
  | msgrcv (msgdata : Msgbuf)
  | printf (msgdata : Msgbuf)
  | sendFunc (msgdata : Msgbuf)
  | sendLoop (loop : ℕ) (msgdata : Msgbuf)
  | sendPrint (loop : ℕ) (msgdata : Msgbuf)
  | sendMsgsnd (loop : ℕ) (msgdata : Msgbuf)
  | sendEnd
  | recvFunc (msgdata : Msgbuf)
  | recvStat (msgdata : Msgbuf)
  | recvMsgrcv (msgdata : Msgbuf)
  | recvPrint (msgdata : Msgbuf)
  | crashed

def test1 : List UInt8 := bytes ['t', 'e', 's', 't', '1']

def test2 : List UInt8 := bytes ['t', 'e', 's', 't', '2']

def test3 : List UInt8 := bytes ['t', 'e', 's', 't', '3']

def texts : List (List UInt8) := [test1, test2, test3]

/-- `strcpy(p->m_data, text)` -/
def copied (d : Msgbuf) (text : List UInt8) (p : Msgbuf → Point) : Move Point Msgbuf Line :=
  match d.mData.strcpy text with
  | .ok mData => .go (p { d with mData := mData }) []
  | .error _ => .go .crashed []

/-- `printf` with `p->m_type` and `p->m_data` -/
def printed (d : Msgbuf) (line : ℤ → List UInt8 → Line) (p : Point) : Move Point Msgbuf Line :=
  match d.mData.str with
  | .ok text => .go p [line d.mType text]
  | .error _ => .go .crashed []

/-- `if (info.msg_qnum == 0)` of `recv_func` -/
def looked (d : Msgbuf) (msgQnum : ℕ) : Point := if msgQnum = 0 then .recvStat d else .recvMsgrcv d

def next : Point → Move Point Msgbuf Line
  | .strcpy k d => copied d (texts.getD k []) (.msgsnd k)
  | .msgsnd k d => .send d (if k < 2 then .strcpy (k + 1) d else .msgrcv d)
  | .msgrcv _ => .receive .printf
  | .printf d => printed d .message (.msgrcv d)
  | .sendFunc d => .go (.sendLoop 0 d) [.startSend]
  | .sendLoop loop d => if loop < 5 then copied d test1 (.sendPrint loop) else .go .sendEnd [.endSend]
  | .sendPrint loop d => .go (.sendMsgsnd loop d) [.sendMessage]
  | .sendMsgsnd loop d => .send d (.sendLoop (loop + 1) d)
  | .sendEnd => .stop
  | .recvFunc d => .go (.recvStat d) [.startRecv]
  | .recvStat d => .count (looked d)
  | .recvMsgrcv _ => .receive .recvPrint
  | .recvPrint d => printed d .recv (.recvStat d)
  | .crashed => .stop

inductive Program
  | main
  | sendFunc
  | recvFunc

/-- What a process or a thread is started as: the program, and the process it belongs to. -/
structure Role where
  program : Program
  pid : ℤ

/-- Where it begins: `m_type` is its `getpid()` if it sends, and the rest of `msgdata` is what the
stack holds. -/
inductive Start : Role → Point → Prop
  | main (msgdata : Msgbuf) (hpid : 0 < msgdata.mType) : Start ⟨.main, msgdata.mType⟩ (.strcpy 0 msgdata)
  | sendFunc (msgdata : Msgbuf) (hpid : 0 < msgdata.mType) :
      Start ⟨.sendFunc, msgdata.mType⟩ (.sendFunc msgdata)
  | recvFunc (pid : ℤ) (msgdata : Msgbuf) : Start ⟨.recvFunc, pid⟩ (.recvFunc msgdata)

/-! ## The moves -/

theorem copied_go (d : Msgbuf) (text : List UInt8) (p : Msgbuf → Point) : ∃ q, copied d text p = .go q [] := by
  unfold copied
  split
  · exact ⟨_, rfl⟩
  · exact ⟨_, rfl⟩

theorem printed_go (d : Msgbuf) (line : ℤ → List UInt8 → Line) (p : Point) :
    ∃ q lines, printed d line p = .go q lines := by
  unfold printed
  split
  · exact ⟨_, _, rfl⟩
  · exact ⟨_, _, rfl⟩

/-- Everything but the calls that have to do with the queue is done alone. -/
theorem next_cases (p : Point) :
    (∃ p' lines, next p = .go p' lines) ∨ (∃ k d, p = .msgsnd k d) ∨ (∃ loop d, p = .sendMsgsnd loop d) ∨
      (∃ d, p = .msgrcv d) ∨ (∃ d, p = .recvMsgrcv d) ∨ (∃ d, p = .recvStat d) ∨ p = .sendEnd ∨
        p = .crashed := by
  cases p with
  | strcpy k d =>
    obtain ⟨q, hq⟩ := copied_go d (texts.getD k []) (.msgsnd k)
    exact Or.inl ⟨q, [], hq⟩
  | printf d => exact Or.inl (printed_go d .message (.msgrcv d))
  | sendFunc d => exact Or.inl ⟨_, _, rfl⟩
  | sendLoop loop d =>
    by_cases hloop : loop < 5
    · obtain ⟨q, hq⟩ := copied_go d test1 (.sendPrint loop)
      exact Or.inl ⟨q, [], (if_pos hloop).trans hq⟩
    · exact Or.inl ⟨_, _, if_neg hloop⟩
  | sendPrint loop d => exact Or.inl ⟨_, _, rfl⟩
  | recvFunc d => exact Or.inl ⟨_, _, rfl⟩
  | recvPrint d => exact Or.inl (printed_go d .recv (.recvStat d))
  | _ => simp

theorem next_send {p p' : Point} {m : Msgbuf} (h : next p = .send m p') :
    (∃ k, p = .msgsnd k m ∧ p' = if k < 2 then .strcpy (k + 1) m else .msgrcv m) ∨
      ∃ loop, p = .sendMsgsnd loop m ∧ p' = .sendLoop (loop + 1) m := by
  obtain ⟨q, lines, hq⟩ | ⟨k, d, rfl⟩ | ⟨loop, d, rfl⟩ | ⟨d, rfl⟩ | ⟨d, rfl⟩ | ⟨d, rfl⟩ | rfl | rfl :=
    next_cases p
  · cases hq.symm.trans h
  · cases h
    exact Or.inl ⟨k, rfl, rfl⟩
  · cases h
    exact Or.inr ⟨loop, rfl, rfl⟩
  all_goals cases h

theorem next_receive {p : Point} {f : Msgbuf → Point} (h : next p = .receive f) :
    (∃ d, p = .msgrcv d ∧ f = .printf) ∨ ∃ d, p = .recvMsgrcv d ∧ f = .recvPrint := by
  obtain ⟨q, lines, hq⟩ | ⟨k, d, rfl⟩ | ⟨loop, d, rfl⟩ | ⟨d, rfl⟩ | ⟨d, rfl⟩ | ⟨d, rfl⟩ | rfl | rfl :=
    next_cases p
  · cases hq.symm.trans h
  · cases h
  · cases h
  · cases h
    exact Or.inl ⟨d, rfl, rfl⟩
  · cases h
    exact Or.inr ⟨d, rfl, rfl⟩
  all_goals cases h

theorem next_count {p : Point} {f : ℕ → Point} (h : next p = .count f) :
    ∃ d, p = .recvStat d ∧ f = looked d := by
  obtain ⟨q, lines, hq⟩ | ⟨k, d, rfl⟩ | ⟨loop, d, rfl⟩ | ⟨d, rfl⟩ | ⟨d, rfl⟩ | ⟨d, rfl⟩ | rfl | rfl :=
    next_cases p
  · cases hq.symm.trans h
  all_goals cases h
  exact ⟨d, rfl, rfl⟩

theorem next_stop {p : Point} (h : next p = .stop) : p = .sendEnd ∨ p = .crashed := by
  obtain ⟨q, lines, hq⟩ | ⟨k, d, rfl⟩ | ⟨loop, d, rfl⟩ | ⟨d, rfl⟩ | ⟨d, rfl⟩ | ⟨d, rfl⟩ | hp := next_cases p
  · cases hq.symm.trans h
  · cases h
  · cases h
  · cases h
  · cases h
  · cases h
  · exact hp

/-! ## What a message says -/

def content (m : Msgbuf) : ℤ × List UInt8 := (m.mType, m.mData.text)

def messageLine (m : Msgbuf) : Line := .message m.mType m.mData.text

def recvLine (m : Msgbuf) : Line := .recv m.mType m.mData.text

structure Valid (m : Msgbuf) : Prop where
  pid : 0 < m.mType
  ended : 0 ∈ m.mData.cells
  text : m.mData.text ∈ texts

theorem texts_fit : ∀ text ∈ texts, 0 ∉ text ∧ text.length < sizeData := by decide

theorem copied_eq (d : Msgbuf) {text : List UInt8} (h : text ∈ texts) (p : Msgbuf → Point) :
    ∃ d', copied d text p = .go (p d') [] ∧ content d' = (d.mType, text) ∧ 0 ∈ d'.mData.cells := by
  obtain ⟨hnul, hfit⟩ := texts_fit text h
  obtain ⟨mData, hcopy, htext, hended⟩ := d.mData.strcpy_ok text hnul hfit
  refine ⟨{ d with mData := mData }, ?_, by rw [content, htext], hended⟩
  rw [copied, hcopy]

theorem printed_eq {d : Msgbuf} (h : 0 ∈ d.mData.cells) (line : ℤ → List UInt8 → Line) (p : Point) :
    printed d line p = .go p [line d.mType d.mData.text] := by
  rw [printed, d.mData.str_ok h]

theorem valid_of_content {d : Msgbuf} {pid : ℤ} {text : List UInt8} (hpid : 0 < pid) (htext : text ∈ texts)
    (h : content d = (pid, text)) (hended : 0 ∈ d.mData.cells) : Valid d := by
  obtain ⟨htype, hd⟩ := Prod.mk.inj h
  exact ⟨by rw [htype]; exact hpid, hended, by rw [hd]; exact htext⟩

/-! ## What each of them knows -/

/-- `main` has sent its first `k` messages and received none. -/
structure SentFirst (c : Role) (k : ℕ) (d : Msgbuf) (gave got : List Msgbuf) (told : List Line) : Prop where
  program : c.program = .main
  turn : k < 3
  own : d.mType = c.pid
  pid : 0 < c.pid
  gave : gave.map content = (texts.take k).map (Prod.mk c.pid)
  got : got = []
  told : told = []

/-- `main` has sent all its messages. -/
structure SentAll (c : Role) (gave : List Msgbuf) : Prop where
  program : c.program = .main
  gave : gave.map content = texts.map (Prod.mk c.pid)

/-- `send_func` has sent `loop` messages and announced `shown` of them. -/
structure SentLoop (c : Role) (loop shown : ℕ) (d : Msgbuf) (gave got : List Msgbuf) (told : List Line) :
    Prop where
  program : c.program = .sendFunc
  turn : shown ≤ 5
  own : d.mType = c.pid
  pid : 0 < c.pid
  gave : gave.map content = List.replicate loop (c.pid, test1)
  got : got = []
  told : told = .startSend :: List.replicate shown .sendMessage

/-- What has been received has been printed, but for the last message `d`. -/
def Pending (d : Msgbuf) (got : List Msgbuf) (told before : List Line) (line : Msgbuf → Line) : Prop :=
  Valid d ∧ ∃ shown, got = shown ++ [d] ∧ told = before ++ shown.map line

def Knows (c : Role) : Point → List Msgbuf → List Msgbuf → List Line → Prop
  | .strcpy k d, gave, got, told => SentFirst c k d gave got told
  | .msgsnd k d, gave, got, told =>
    SentFirst c k d gave got told ∧ content d = (c.pid, texts.getD k []) ∧ 0 ∈ d.mData.cells
  | .msgrcv _, gave, got, told => SentAll c gave ∧ told = got.map messageLine
  | .printf d, gave, got, told => SentAll c gave ∧ Pending d got told [] messageLine
  | .sendFunc d, gave, got, told =>
    c.program = .sendFunc ∧ d.mType = c.pid ∧ 0 < c.pid ∧ gave = [] ∧ got = [] ∧ told = []
  | .sendLoop loop d, gave, got, told => SentLoop c loop loop d gave got told
  | .sendPrint loop d, gave, got, told =>
    SentLoop c loop loop d gave got told ∧ loop < 5 ∧ content d = (c.pid, test1) ∧ 0 ∈ d.mData.cells
  | .sendMsgsnd loop d, gave, got, told =>
    SentLoop c loop (loop + 1) d gave got told ∧ content d = (c.pid, test1) ∧ 0 ∈ d.mData.cells
  | .sendEnd, gave, got, told =>
    c.program = .sendFunc ∧ gave.map content = List.replicate 5 (c.pid, test1) ∧ got = [] ∧
      told = .startSend :: List.replicate 5 .sendMessage ++ [.endSend]
  | .recvFunc _, gave, got, told => c.program = .recvFunc ∧ gave = [] ∧ got = [] ∧ told = []
  | .recvStat _, gave, got, told =>
    c.program = .recvFunc ∧ gave = [] ∧ told = .startRecv :: got.map recvLine
  | .recvMsgrcv _, gave, got, told =>
    c.program = .recvFunc ∧ gave = [] ∧ told = .startRecv :: got.map recvLine
  | .recvPrint d, gave, got, told =>
    c.program = .recvFunc ∧ gave = [] ∧ Pending d got told [.startRecv] recvLine
  | .crashed, _, _, _ => False

theorem getD_mem_texts {k : ℕ} (h : k < 3) : texts.getD k [] ∈ texts := by
  rw [List.getD_eq_getElem _ _ h]
  exact List.getElem_mem h

theorem knows_start {c : Role} {p : Point} (h : Start c p) : Knows c p [] [] [] := by
  cases h with
  | main d hpid => exact ⟨rfl, by decide, rfl, hpid, rfl, rfl, rfl⟩
  | sendFunc d hpid => exact ⟨rfl, rfl, hpid, rfl, rfl, rfl⟩
  | recvFunc pid d => exact ⟨rfl, rfl, rfl, rfl⟩

theorem knows_go {c : Role} {p p' : Point} {lines : List Line} {gave got : List Msgbuf} {told : List Line}
    (hn : next p = .go p' lines) (hk : Knows c p gave got told) :
    Knows c p' gave got (told ++ lines) := by
  cases p with
  | strcpy k d =>
    obtain ⟨d', hcopy, hcontent, hended⟩ := copied_eq d (getD_mem_texts hk.turn) (.msgsnd k)
    cases hcopy.symm.trans hn
    rw [hk.own] at hcontent
    rw [List.append_nil]
    exact ⟨{ hk with own := (Prod.mk.inj hcontent).1 }, hcontent, hended⟩
  | printf d =>
    obtain ⟨hall, hvalid, shown, rfl, rfl⟩ := hk
    cases (printed_eq hvalid.ended _ _).symm.trans hn
    exact ⟨hall, by simp [messageLine]⟩
  | sendFunc d =>
    cases hn
    obtain ⟨hprogram, hown, hpid, rfl, rfl, rfl⟩ := hk
    exact ⟨hprogram, by decide, hown, hpid, rfl, rfl, rfl⟩
  | sendLoop loop d =>
    by_cases hloop : loop < 5
    · obtain ⟨d', hcopy, hcontent, hended⟩ := copied_eq d (show test1 ∈ texts by decide) (.sendPrint loop)
      cases ((if_pos hloop).trans hcopy).symm.trans hn
      rw [hk.own] at hcontent
      rw [List.append_nil]
      exact ⟨{ hk with own := (Prod.mk.inj hcontent).1 }, hloop, hcontent, hended⟩
    · cases (if_neg hloop).symm.trans hn
      obtain rfl : loop = 5 := by
        have hle := hk.turn
        omega
      exact ⟨hk.program, hk.gave, hk.got, by rw [hk.told]⟩
  | sendPrint loop d =>
    cases hn
    obtain ⟨hk, hloop, hd⟩ := hk
    refine ⟨{ hk with turn := hloop, told := ?_ }, hd⟩
    rw [hk.told, List.replicate_succ', List.cons_append]
  | recvFunc d =>
    cases hn
    obtain ⟨hprogram, rfl, rfl, rfl⟩ := hk
    exact ⟨hprogram, rfl, rfl⟩
  | recvPrint d =>
    obtain ⟨hprogram, hgave, hvalid, shown, rfl, rfl⟩ := hk
    cases (printed_eq hvalid.ended _ _).symm.trans hn
    exact ⟨hprogram, hgave, by simp [recvLine]⟩
  | msgsnd k d => cases hn
  | msgrcv d => cases hn
  | sendMsgsnd loop d => cases hn
  | sendEnd => cases hn
  | recvStat d => cases hn
  | recvMsgrcv d => cases hn
  | crashed => cases hn

theorem take_texts {k : ℕ} (h : k < 3) : texts.take (k + 1) = texts.take k ++ [texts.getD k []] := by
  have hlen : k < texts.length := h
  rw [List.getD_eq_getElem _ _ hlen, List.take_append_getElem hlen]

theorem SentFirst.snoc {c : Role} {k : ℕ} {d : Msgbuf} {gave got : List Msgbuf} {told : List Line}
    (h : SentFirst c k d gave got told) (hd : content d = (c.pid, texts.getD k [])) :
    (gave ++ [d]).map content = (texts.take (k + 1)).map (Prod.mk c.pid) := by
  rw [take_texts h.turn, List.map_append, List.map_append, h.gave, List.map_singleton, hd, List.map_singleton]

theorem knows_send {c : Role} {p p' : Point} {m : Msgbuf} {gave got : List Msgbuf} {told : List Line}
    (hn : next p = .send m p') (hk : Knows c p gave got told) :
    Valid m ∧ Knows c p' (gave ++ [m]) got told := by
  obtain ⟨k, rfl, rfl⟩ | ⟨loop, rfl, rfl⟩ := next_send hn
  · obtain ⟨hk, hd, hended⟩ := hk
    have hgave := hk.snoc hd
    refine ⟨valid_of_content hk.pid (getD_mem_texts hk.turn) hd hended, ?_⟩
    by_cases hmore : k < 2
    · rw [if_pos hmore]
      exact { hk with turn := by omega, gave := hgave }
    · have hlast : k = 2 := by
        have hlt := hk.turn
        omega
      rw [if_neg hmore]
      rw [hlast] at hgave
      exact ⟨⟨hk.program, hgave⟩, by rw [hk.got, hk.told]; rfl⟩
  · obtain ⟨hk, hd, hended⟩ := hk
    refine ⟨valid_of_content hk.pid (by decide) hd hended, { hk with gave := ?_ }⟩
    rw [List.map_append, hk.gave, List.map_singleton, hd, List.replicate_succ']

theorem knows_receive {c : Role} {p : Point} {f : Msgbuf → Point} {m : Msgbuf} {gave got : List Msgbuf}
    {told : List Line} (hn : next p = .receive f) (hm : Valid m) (hk : Knows c p gave got told) :
    Knows c (f m) gave (got ++ [m]) told := by
  obtain ⟨d, rfl, rfl⟩ | ⟨d, rfl, rfl⟩ := next_receive hn
  · exact ⟨hk.1, hm, got, rfl, by rw [hk.2]; rfl⟩
  · exact ⟨hk.1, hk.2.1, hm, got, rfl, by rw [hk.2.2]; rfl⟩

theorem knows_count {c : Role} {p : Point} {f : ℕ → Point} {gave got : List Msgbuf} {told : List Line}
    (n : ℕ) (hn : next p = .count f) (hk : Knows c p gave got told) : Knows c (f n) gave got told := by
  obtain ⟨d, rfl, rfl⟩ := next_count hn
  by_cases hzero : n = 0
  · rw [looked, if_pos hzero]
    exact hk
  · rw [looked, if_neg hzero]
    exact hk

theorem protocol : Protocol next Start Valid Knows where
  start := fun _ _ h => knows_start h
  go := fun _ _ _ _ _ _ _ hn hk => knows_go hn hk
  count := fun _ _ _ n _ _ _ hn hk => knows_count n hn hk
  send := fun _ _ _ _ _ _ _ hn hk => knows_send hn hk
  receive := fun _ _ _ _ _ _ _ hn hm hk => knows_receive hn hm hk

/-! ## Every run -/

/-- `send_func` announces each message and then sends it, and at its end it has sent all. -/
structure Announced (gave : List Msgbuf) (told : List Line) : Prop where
  before : gave.length ≤ told.count .sendMessage
  behind : told.count .sendMessage ≤ gave.length + 1
  ended : .endSend ∈ told → gave.length = 5

/-- What a program may have done so far: the messages it has sent and received, and its lines. `main`
receives when it has sent all its messages, and prints what it receives. -/
def Account (pid : ℤ) (gave got : List Msgbuf) (told : List Line) : Program → Prop
  | .main => gave.map content <+: texts.map (Prod.mk pid) ∧ (got ≠ [] → gave.length = 3) ∧
      told <+: got.map messageLine ∧ got.length ≤ told.length + 1
  | .sendFunc => gave.map content <+: List.replicate 5 (pid, test1) ∧ got = [] ∧
      told <+: .startSend :: List.replicate 5 .sendMessage ++ [.endSend] ∧ Announced gave told
  | .recvFunc => gave = [] ∧ told <+: .startRecv :: got.map recvLine ∧ got.length ≤ told.length

theorem prefix_replicate_of_le {α : Type} {m n : ℕ} (h : m ≤ n) (a : α) :
    List.replicate m a <+: List.replicate n a :=
  ⟨List.replicate (n - m) a, by rw [List.replicate_append_replicate, Nat.add_sub_cancel' h]⟩

theorem SentFirst.account {c : Role} {k : ℕ} {d : Msgbuf} {gave got : List Msgbuf} {told : List Line}
    (h : SentFirst c k d gave got told) : Account c.pid gave got told c.program := by
  rw [h.program, Account, h.gave, h.got, h.told]
  exact ⟨(List.take_prefix k texts).map _, fun hne => absurd rfl hne, List.nil_prefix, Nat.zero_le _⟩

theorem SentLoop.announced {c : Role} {loop shown : ℕ} {d : Msgbuf} {gave got : List Msgbuf}
    {told : List Line} (h : SentLoop c loop shown d gave got told) (hle : loop ≤ shown)
    (hlt : shown ≤ loop + 1) : Announced gave told := by
  have hgave : gave.length = loop := by simpa using congrArg List.length h.gave
  have hcount : told.count .sendMessage = shown := by
    rw [h.told, List.count_cons_of_ne (by decide), List.count_replicate_self]
  refine ⟨by omega, by omega, fun hend => ?_⟩
  rw [h.told] at hend
  simp at hend

theorem SentLoop.account {c : Role} {loop shown : ℕ} {d : Msgbuf} {gave got : List Msgbuf}
    {told : List Line} (h : SentLoop c loop shown d gave got told) (hle : loop ≤ shown)
    (hlt : shown ≤ loop + 1) : Account c.pid gave got told c.program := by
  have hannounced := h.announced hle hlt
  rw [h.program, Account, h.gave]
  refine ⟨prefix_replicate_of_le (hle.trans h.turn) _, h.got, ?_, hannounced⟩
  rw [h.told]
  refine List.cons_prefix_cons.mpr ⟨rfl, ?_⟩
  exact (prefix_replicate_of_le h.turn _).trans (List.prefix_append _ _)

theorem SentAll.length {c : Role} {gave : List Msgbuf} (h : SentAll c gave) : gave.length = 3 := by
  have hlen := congrArg List.length h.gave
  rw [List.length_map, List.length_map] at hlen
  exact hlen

theorem account_of_knows {c : Role} {p : Point} {gave got : List Msgbuf} {told : List Line}
    (h : Knows c p gave got told) : Account c.pid gave got told c.program := by
  cases p with
  | strcpy k d => exact h.account
  | msgsnd k d => exact h.1.account
  | msgrcv d =>
    obtain ⟨hall, rfl⟩ := h
    rw [hall.program, Account, hall.gave, List.length_map]
    exact ⟨List.prefix_refl _, fun _ => hall.length, List.prefix_refl _, Nat.le_succ _⟩
  | printf d =>
    obtain ⟨hall, -, shown, rfl, rfl⟩ := h
    rw [hall.program, Account, hall.gave, List.nil_append, List.map_append, List.length_append,
      List.length_map]
    exact ⟨List.prefix_refl _, fun _ => hall.length, List.prefix_append _ _, Nat.le_refl _⟩
  | sendFunc d =>
    obtain ⟨hprogram, -, -, rfl, rfl, rfl⟩ := h
    rw [hprogram]
    exact ⟨List.nil_prefix, rfl, List.nil_prefix, Nat.le_refl 0, Nat.zero_le 1, fun hend => by cases hend⟩
  | sendLoop loop d => exact h.account (Nat.le_refl loop) (Nat.le_succ loop)
  | sendPrint loop d => exact h.1.account (Nat.le_refl loop) (Nat.le_succ loop)
  | sendMsgsnd loop d => exact h.1.account (Nat.le_succ loop) (Nat.le_refl (loop + 1))
  | sendEnd =>
    obtain ⟨hprogram, hgave, rfl, rfl⟩ := h
    have hlen : gave.length = 5 := by simpa using congrArg List.length hgave
    rw [hprogram, Account, hgave]
    exact ⟨List.prefix_refl _, rfl, List.prefix_refl _, hlen.le, Nat.le_succ_of_le hlen.ge, fun _ => hlen⟩
  | recvFunc d =>
    obtain ⟨hprogram, rfl, rfl, rfl⟩ := h
    rw [hprogram]
    exact ⟨rfl, List.nil_prefix, Nat.le_refl _⟩
  | recvStat d =>
    obtain ⟨hprogram, rfl, rfl⟩ := h
    rw [hprogram, Account, List.length_cons, List.length_map]
    exact ⟨rfl, List.prefix_refl _, Nat.le_succ _⟩
  | recvMsgrcv d =>
    obtain ⟨hprogram, rfl, rfl⟩ := h
    rw [hprogram, Account, List.length_cons, List.length_map]
    exact ⟨rfl, List.prefix_refl _, Nat.le_succ _⟩
  | recvPrint d =>
    obtain ⟨hprogram, rfl, -, shown, rfl, rfl⟩ := h
    rw [hprogram, Account, List.map_append]
    refine ⟨rfl, ?_, by simp⟩
    exact List.prefix_append (Line.startRecv :: shown.map recvLine) _
  | crashed => exact h.elim

/-- A line about a message is about one that has been received. -/
theorem account_line {program : Program} {pid t : ℤ} {text : List UInt8} {gave got : List Msgbuf}
    {told : List Line} (h : Account pid gave got told program)
    (hline : .message t text ∈ told ∨ .recv t text ∈ told) : ∃ m ∈ got, content m = (t, text) := by
  cases program with
  | main =>
    obtain ⟨-, -, htold, -⟩ := h
    obtain hline | hline := hline
    · obtain ⟨m, hm, heq⟩ := List.mem_map.mp (htold.subset hline)
      cases heq
      exact ⟨m, hm, rfl⟩
    · obtain ⟨m, -, heq⟩ := List.mem_map.mp (htold.subset hline)
      cases heq
  | sendFunc =>
    obtain ⟨-, -, htold, -⟩ := h
    obtain hline | hline := hline
    · exact absurd (htold.subset hline) (by simp)
    · exact absurd (htold.subset hline) (by simp)
  | recvFunc =>
    obtain ⟨-, htold, -⟩ := h
    obtain hline | hline := hline
    · obtain heq | hmem := List.mem_cons.mp (htold.subset hline)
      · cases heq
      · obtain ⟨m, -, heq⟩ := List.mem_map.mp hmem
        cases heq
    · obtain heq | hmem := List.mem_cons.mp (htold.subset hline)
      · cases heq
      · obtain ⟨m, hm, heq⟩ := List.mem_map.mp hmem
        cases heq
        exact ⟨m, hm, rfl⟩

/-- **Messages in order.** In every run of any processes of the two programs, started and killed at
any time, the messages that have been received, and then those in the queue, are those that have been
sent; none of the programs leaves its `msgdata`, each has sent and printed what the program says that it
was started as, under its own process id, and what is printed of a message is what its sender put in. -/
theorem messages_in_order {cap : ℕ} {as : List (NetAct Point)} {s : Net Point Msgbuf Line}
    (h : exec (step next cap) empty as = some s) (hstart : ∀ p, .start p ∈ as → ∃ c, Start c p) :
    s.sent.map Prod.snd = s.received.map Prod.snd ++ s.queue ∧
      (∀ i x, s.tasks[i]? = some x → x ≠ some .crashed ∧
        ∃ p c, (starts as)[i]? = some p ∧ Start c p ∧
          Account c.pid (own i s.sent) (own i s.received) (own i s.out) c.program) ∧
      ∀ i t text, (i, .message t text) ∈ s.out ∨ (i, .recv t text) ∈ s.out →
        ∃ j m, (j, m) ∈ s.sent ∧ content m = (t, text) := by
  have hsent := (run_conserved h (conserved_empty cap)).sent
  have hI := protocol.run h hstart informed_empty
  have hstarted : s.started = starts as := run_started h
  have haccount : ∀ i x, s.tasks[i]? = some x → ∃ p c, (starts as)[i]? = some p ∧ Start c p ∧
      Account c.pid (own i s.sent) (own i s.received) (own i s.out) c.program := by
    intro i x hx
    obtain ⟨c, _, ⟨p, hp, hc⟩, -, hk⟩ := hI.knows i x hx
    rw [hstarted] at hp
    exact ⟨p, c, hp, hc, account_of_knows hk⟩
  refine ⟨hsent, fun i x hx => ⟨?_, haccount i x hx⟩, fun i t text hline => ?_⟩
  · rintro rfl
    obtain ⟨_, -, hk⟩ := hI.of_live (live_eq_some.mpr hx)
    exact hk
  · rw [← mem_own, ← mem_own] at hline
    cases hx : s.tasks[i]? with
    | none =>
      obtain ⟨-, -, hnone⟩ := hI.absent i (List.getElem?_eq_none_iff.mp hx)
      rw [hnone] at hline
      obtain hline | hline := hline <;> cases hline
    | some x =>
      obtain ⟨_, _, -, -, hacc⟩ := haccount i x hx
      obtain ⟨m, hm, hcontent⟩ := account_line hacc hline
      have hmem : m ∈ s.sent.map Prod.snd := by
        rw [hsent]
        exact List.mem_append_left _ (List.mem_map.mpr ⟨(i, m), mem_own.mp hm, rfl⟩)
      obtain ⟨⟨j, m'⟩, hj, rfl⟩ := List.mem_map.mp hmem
      exact ⟨j, m', hj, hcontent⟩

/-- A `msgdata` of the process 7 on a stack that holds ones. -/
def onStack : Msgbuf := ⟨7, ⟨List.replicate sizeData 1, List.length_replicate⟩⟩

/-- A process and a thread of another one send `test1`, and a receiving thread prints both. -/
def overheard : List (NetAct Point) :=
  [.start (.strcpy 0 onStack), .start (.sendFunc { onStack with mType := 8 }), .start (.recvFunc onStack)] ++
    [0, 0, 1, 1, 1, 1, 2, 2, 2, 2, 2, 2, 2].map NetAct.run

theorem starts_overheard : ∀ p, .start p ∈ overheard → ∃ c, Start c p := by
  intro p hp
  simp only [overheard, List.cons_append, List.nil_append, List.mem_cons, NetAct.start.injEq] at hp
  obtain rfl | rfl | rfl | hp := hp
  · exact ⟨_, .main onStack (by decide)⟩
  · exact ⟨_, .sendFunc { onStack with mType := 8 } (by decide)⟩
  · exact ⟨_, .recvFunc 8 onStack⟩
  · simp at hp

theorem messages_in_order_overheard :
    ∃ s, exec (step next 64) empty overheard = some s ∧
      s.out = [(1, .startSend), (1, .sendMessage), (2, .startRecv), (2, .recv 7 test1),
        (2, .recv 8 test1)] ∧
      s.sent.map Prod.snd = s.received.map Prod.snd ++ s.queue ∧
      Account 8 (own 1 s.sent) (own 1 s.received) (own 1 s.out) .sendFunc := by
  obtain ⟨s, hs⟩ := Option.isSome_iff_exists.mp
    (show (exec (step next 64) empty overheard).isSome = true by decide +kernel)
  have hout : ((exec (step next 64) empty overheard).map fun s => (s.out, s.tasks.length)) =
      some ([(1, .startSend), (1, .sendMessage), (2, .startRecv), (2, .recv 7 test1),
        (2, .recv 8 test1)], 3) := by decide +kernel
  rw [hs, Option.map_some, Option.some.injEq, Prod.mk.injEq] at hout
  obtain ⟨hsent, htasks, -⟩ := messages_in_order hs starts_overheard
  have htwo : 1 < s.tasks.length := by omega
  obtain ⟨-, p, c, hp, hc, hacc⟩ := htasks 1 _ (List.getElem?_eq_getElem htwo)
  refine ⟨s, hs, hout.1, hsent, ?_⟩
  cases Option.some.inj hp
  cases hc
  exact hacc

end LinuxAppSamp.Queue.SystemV
