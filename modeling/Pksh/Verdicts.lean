import Pksh.Replies

/-! What becomes of a reply of the file server on a stream that comes to an end.
`ps2netfs_accept_pkt` closes the connection, refuses the reply, or goes on with
whatever is in the buffer. -/

namespace Pksh

open Wire Traced

inductive Verdict
  | closed
  | refused
  | passed
deriving DecidableEq, Repr

theorem afterFail_idem (e : Ending Errno) : e.afterFail.afterFail = e.afterFail := by
  cases e with
  | quiet => rfl
  | eof => rfl
  | fail e sticky => cases sticky <;> rfl

theorem stop_afterFail_ne {e : Ending Errno} (h : e.stop Errno.drops ≠ .never) :
    e.afterFail.stop Errno.drops ≠ .never := by
  cases e with
  | quiet => exact h
  | eof => exact h
  | fail e sticky =>
    cases sticky with
    | true => exact h
    | false => exact nofun

theorem stop_afterFail_eof {e : Ending Errno} (h : e.stop Errno.drops = .eof) :
    e.afterFail.stop Errno.drops = .eof := by
  cases e with
  | quiet => exact h
  | eof => exact h
  | fail e sticky =>
    cases sticky with
    | true => exact h
    | false => rfl

/-- What a request listens to: the bytes still to come, how the stream ends
behind them, and the buffer they are put into. -/
@[ext]
structure Listening where
  ending : Ending Errno
  buffer : Mem
  stream : List Byte

namespace Listening

variable (x : Listening)

def stop : Reading Errno := x.ending.stop Errno.drops

def recv (off n : Nat) : Listening :=
  ⟨if n ≤ x.stream.length then x.ending else x.ending.afterFail, x.buffer.store off (x.stream.take n), x.stream.drop n⟩

/-- What a receive of `n` bytes reports. -/
def count (n : Int) : Int := if n.toNat ≤ x.stream.length then n else if x.stop = .eof then 0 else -1

def headed : Listening := x.recv 0 pktHdrSize

def hlen : Nat := (ntohs (x.headed.buffer.half 4)).toNat

/-- How many bytes are asked for with the body. -/
def asked : Nat := pktHdrSize + (x.hlen - pktHdrSize)

def next : Listening := x.recv 0 x.asked

def field : Int := (ntohl (x.buffer.word 6)).toInt

/-- An end of the stream within the header passes, and so does a connection
that breaks within the body. -/
def verdict (len : Nat) (pktType : Word) : Verdict :=
  if x.stream.length < pktHdrSize ∧ x.stop = .eof then .passed
  else if ntohl (x.headed.buffer.word 0) ≠ pktType then .closed
  else if len < x.hlen ∨ x.hlen = pktHdrSize then .refused
  else if x.headed.stream.length < x.hlen - pktHdrSize ∧ x.headed.stop = .eof then .refused
  else .passed

variable {x} {len : Nat} {pktType : Word}

theorem verdict_passed_iff : x.verdict len pktType = .passed ↔ x.stream.length < pktHdrSize ∧ x.stop = .eof ∨
    ntohl (x.headed.buffer.word 0) = pktType ∧ x.hlen ≤ len ∧ x.hlen ≠ pktHdrSize ∧
      ¬(x.headed.stream.length < x.hlen - pktHdrSize ∧ x.headed.stop = .eof) := by
  by_cases h1 : x.stream.length < pktHdrSize ∧ x.stop = .eof
  · exact iff_of_true (if_pos h1) (.inl h1)
  · rw [verdict, if_neg h1, or_iff_right h1]
    by_cases h2 : ntohl (x.headed.buffer.word 0) = pktType
    · rw [if_neg (not_not.mpr h2), and_iff_right h2]
      by_cases h3 : len < x.hlen ∨ x.hlen = pktHdrSize
      · rw [if_pos h3]
        exact iff_of_false nofun fun h => h3.elim (fun h' => by omega) h.2.1
      · rw [if_neg h3]
        obtain ⟨h3, h4⟩ := not_or.mp h3
        rw [and_iff_right (Nat.le_of_not_lt h3), and_iff_right h4]
        by_cases h5 : x.headed.stream.length < x.hlen - pktHdrSize ∧ x.headed.stop = .eof
        · rw [if_pos h5]
          exact iff_of_false nofun fun h => h h5
        · rw [if_neg h5]
          exact iff_of_true rfl h5
    · rw [if_pos h2]
      exact iff_of_false nofun fun h => h2 h.1

variable (x)

theorem recv_recv (a b : Nat) : (x.recv 0 a).recv a b = x.recv 0 (a + b) := by
  ext1
  · simp only [recv, List.length_drop]
    by_cases ha : a ≤ x.stream.length
    · rw [if_pos ha]
      by_cases hb : a + b ≤ x.stream.length
      · rw [if_pos hb, if_pos (by omega)]
      · rw [if_neg hb, if_neg (by omega)]
    · have hab : ¬a + b ≤ x.stream.length := by omega
      rw [if_neg ha, if_neg hab]
      split
      · rfl
      · exact afterFail_idem x.ending
  · exact Mem.store_take_drop x.buffer x.stream a b
  · exact List.drop_drop

theorem recv_short {a b off : Nat} (ha : x.stream.length < a) (hb : x.stream.length < b) : x.recv off a = x.recv off b := by
  simp only [recv, if_neg (Nat.not_le.mpr ha), if_neg (Nat.not_le.mpr hb), List.take_of_length_le (Nat.le_of_lt ha),
    List.take_of_length_le (Nat.le_of_lt hb), List.drop_of_length_le (Nat.le_of_lt ha),
    List.drop_of_length_le (Nat.le_of_lt hb)]

theorem stop_recv_ne {x : Listening} (h : x.stop ≠ .never) (off n : Nat) : (x.recv off n).stop ≠ .never := by
  rw [stop, recv]
  split
  · exact h
  · exact stop_afterFail_ne h

end Listening

def World.listening (w : World) : Listening :=
  ⟨(w.inflow w.ps2NetfsFd).ending, w.recvPacket, w.pending w.ps2NetfsFd⟩

/-- The server's stream comes to an end, and sends to it return. -/
structure World.Ends (w : World) : Prop where
  stop : w.listening.stop ≠ .never
  sink : (w.outflow w.ps2NetfsFd).sink ≠ .blocks

section Receive

variable (u : World) (off : Nat) (n : Int)

theorem received_netfs : (u.received u.ps2NetfsFd (.recvPacket off) n).ps2NetfsFd = u.ps2NetfsFd := by
  rw [received_vars]
  rfl

theorem received_listening :
    (u.received u.ps2NetfsFd (.recvPacket off) n).listening = u.listening.recv off n.toNat := by
  rw [World.listening, received_netfs, received_ending, received_pending, received_vars]
  rfl

theorem received_ends {u : World} (h : u.Ends) : (u.received u.ps2NetfsFd (.recvPacket off) n).Ends where
  stop := by
    rw [received_listening]
    exact Listening.stop_recv_ne h.stop off n.toNat
  sink := by
    rw [received_netfs, received_outflow]
    exact h.sink

end Receive

theorem pkoRecvBytes_listening {u : World} (h : u.Ends) (off : Nat) (n : Int) :
    (pkoRecvBytes u.ps2NetfsFd (.recvPacket off) n).run u =
      ⟨some (u.listening.count n, u.listening.stream.take n.toNat), u.received u.ps2NetfsFd (.recvPacket off) n,
        [.recv u.ps2NetfsFd (u.listening.stream.take n.toNat), .store off (u.listening.stream.take n.toNat)]⟩ :=
  pkoRecvBytes_ends u u.ps2NetfsFd (.recvPacket off) n h.stop

/-- What `ps2netfs_accept_pkt` does by its verdict. -/
inductive Heard (len : Nat) (pktType : Word) (u : World) : Result World Act Int → Prop
  | closed {v : World} {as : List Act} (judged : u.listening.verdict len pktType = .closed)
      (shut : v.ps2NetfsFd = -1) : Heard len pktType u ⟨some 0, v, as⟩
  | refused {v : World} {as : List Act} (judged : u.listening.verdict len pktType = .refused) (ends : v.Ends)
      (netfs : v.ps2NetfsFd = u.ps2NetfsFd) : Heard len pktType u ⟨some 0, v, as⟩
  | passed {x : Int} {v : World} {as : List Act} (judged : u.listening.verdict len pktType = .passed) (ends : v.Ends)
      (netfs : v.ps2NetfsFd = u.ps2NetfsFd) (nonzero : x ≠ 0) (next : v.listening = u.listening.next)
      (got : taken u.ps2NetfsFd as = u.listening.stream.take u.listening.asked) : Heard len pktType u ⟨some x, v, as⟩

theorem heardBody (len : Nat) (pktType : Word) {u v : World} (hv : v.Ends) (hl : v.listening = u.listening.headed)
    (hn : v.ps2NetfsFd = u.ps2NetfsFd) (hu : ¬(u.listening.stream.length < pktHdrSize ∧ u.listening.stop = .eof))
    {as : List Act} (has : taken u.ps2NetfsFd as = u.listening.stream.take pktHdrSize) :
    Heard len pktType u (((acceptBody u.ps2NetfsFd len pktType).run v).after as) := by
  have hbuf : v.recvPacket = u.listening.headed.buffer := congrArg Listening.buffer hl
  have hlen : (ntohs (u.listening.headed.buffer.half 4)).toNat = u.listening.hlen := rfl
  have hsecond := pkoRecvBytes_listening hv pktHdrSize (u.listening.hlen - pktHdrSize)
  have hto : ((u.listening.hlen : Int) - pktHdrSize).toNat = u.listening.hlen - pktHdrSize := by omega
  have hl2 := received_listening v pktHdrSize (u.listening.hlen - pktHdrSize)
  have hn2 := received_netfs v pktHdrSize (u.listening.hlen - pktHdrSize)
  have he2 := received_ends pktHdrSize (u.listening.hlen - pktHdrSize) hv
  rw [hl, hto, hn] at hsecond
  rw [hl, hto, hn, Listening.headed, Listening.recv_recv] at hl2
  rw [hn] at hn2 he2
  simp only [acceptBody, loadPacket, Prog.run_bind, Prog.run_get, Result.andThen_mk_some, Prog.run_pure,
    Result.after_mk, hbuf, hlen]
  by_cases ht : ntohl (u.listening.headed.buffer.word 0) ≠ pktType
  · rw [if_pos ht]
    refine .closed ?_ ?_
    · rw [Listening.verdict, if_neg hu, if_pos ht]
    · rfl
  · rw [if_neg ht]
    by_cases hlong : u.listening.hlen > len
    · rw [if_pos hlong]
      refine .refused ?_ hv hn
      rw [Listening.verdict, if_neg hu, if_neg ht, if_pos (.inl hlong)]
    · rw [if_neg hlong, Prog.run_bind, hsecond, Result.andThen_mk_some, Prog.run_pure, Result.after_mk, Result.after_mk]
      by_cases hz : u.listening.headed.count (u.listening.hlen - pktHdrSize) = 0
      · simp only [hz, if_true]
        refine .refused ?_ he2 hn2
        rw [Listening.verdict, if_neg hu, if_neg ht]
        rw [Listening.count, hto] at hz
        by_cases h6 : u.listening.hlen = pktHdrSize
        · rw [if_pos (.inr h6)]
        · split at hz
          · omega
          · rename_i hlt
            have heof : u.listening.headed.stop = .eof := by
              by_contra he
              rw [if_neg he] at hz
              cases hz
            rw [if_neg (not_or.mpr ⟨hlong, h6⟩), if_pos ⟨Nat.lt_of_not_le hlt, heof⟩]
      · simp only [if_neg hz]
        refine .passed ?_ he2 hn2 (by decide) hl2 ?_
        · rw [Listening.count, hto] at hz
          have h6 : u.listening.hlen ≠ pktHdrSize := by
            intro h6
            rw [h6, Nat.sub_self, if_pos (Nat.zero_le _), Int.sub_self] at hz
            exact hz rfl
          rw [Listening.verdict, if_neg hu, if_neg ht, if_neg (not_or.mpr ⟨hlong, h6⟩), if_neg]
          rintro ⟨hlt, heof⟩
          rw [if_neg (Nat.not_le.mpr hlt), if_pos heof] at hz
          exact hz rfl
        · rw [List.append_nil, taken_append, has, Listening.asked, List.take_add]
          simp [taken, Listening.headed, Listening.recv]

theorem heard (len : Nat) (pktType : Word) {u : World} (h : u.Ends) :
    Heard len pktType u ((ps2netfsAcceptPkt u.ps2NetfsFd len pktType).run u) := by
  have hl := received_listening u 0 pktHdrSize
  have hn := received_netfs u 0 pktHdrSize
  have he := received_ends 0 pktHdrSize h
  have ht : taken u.ps2NetfsFd [.await pktType, .recv u.ps2NetfsFd (u.listening.stream.take pktHdrSize),
      .store 0 (u.listening.stream.take pktHdrSize)] = u.listening.stream.take pktHdrSize := by
    simp [taken]
  rw [accept_run, pkoRecvBytes_listening h, Result.andThen_mk_some]
  rw [Int.toNat_natCast] at hl ⊢
  by_cases hu : u.listening.stream.length < pktHdrSize ∧ u.listening.stop = .eof
  · have hshort : u.listening.stream.length < u.listening.asked := Nat.lt_of_lt_of_le hu.1 (Nat.le_add_right _ _)
    have hx : u.listening.count pktHdrSize = 0 := by
      rw [Listening.count, Int.toNat_natCast, if_neg (Nat.not_le.mpr hu.1), if_pos hu.2]
    simp only [hx, if_true]
    refine .passed (if_pos hu) he hn (by decide) ?_ ?_
    · rw [Listening.next, ← u.listening.recv_short hu.1 hshort]
      exact hl
    · rw [List.take_of_length_le (Nat.le_of_lt hshort)]
      exact ht.trans (List.take_of_length_le (Nat.le_of_lt hu.1))
  · have hx : u.listening.count pktHdrSize ≠ 0 := by
      rw [Listening.count]
      split
      · decide
      · rename_i hlt
        rw [if_neg fun he => hu ⟨Nat.lt_of_not_le hlt, he⟩]
        decide
    simp only [if_neg hx]
    exact heardBody len pktType he hl hn hu ht

theorem sendRequest_returns (size : Nat) {v : World} (h : v.Ends) :
    ∃ u as, (sendRequest size).run v = ⟨some true, u, as⟩ ∧ u.ps2NetfsFd = v.ps2NetfsFd ∧
      u.listening = v.listening ∧ u.Ends ∧ taken v.ps2NetfsFd as = [] := by
  obtain ⟨b, g, hnext⟩ := Outflow.next_of_sink h.sink
  obtain ⟨hv, ho, hi, ht⟩ := sysSend_next v v.ps2NetfsFd (v.sendPacket.slice 0 size)
  have hvars := sysSend_vars v v.ps2NetfsFd (v.sendPacket.slice 0 size)
  rw [hnext] at hv
  obtain ⟨ret, hret, _⟩ := Option.map_eq_some_iff.mp hv
  have hrun : (sendRequest size).run v =
      ⟨some true, ((sysSend v.ps2NetfsFd (v.sendPacket.slice 0 size)).run v).state,
        ((sysSend v.ps2NetfsFd (v.sendPacket.slice 0 size)).run v).acts⟩ := by
    rw [sendRequest, Prog.run_bind, Prog.run_get, Result.andThen_mk_some, Prog.run_bind, Result.andThen_some _ hret]
    simp only [Prog.run_pure, Result.after_mk, List.append_nil, List.nil_append]
  generalize (sysSend v.ps2NetfsFd (v.sendPacket.slice 0 size)).run v = r at hrun hvars ho hi ht
  have hfd : r.state.ps2NetfsFd = v.ps2NetfsFd := by rw [hvars]
  have hl : r.state.listening = v.listening := by
    rw [World.listening, hfd, hi, World.pending, hi, hvars]
    rfl
  refine ⟨r.state, r.acts, hrun, hfd, hl, ⟨hl ▸ h.stop, ?_⟩, ht⟩
  rw [hfd, ho b g hnext, Outflow.next_sink hnext]
  exact h.sink

/-- What a request does by the verdict on its reply. -/
inductive Called (len : Nat) (pktType : Word) (w : World) : Result World Act (Option Mem) → Prop
  | closed {v : World} {as : List Act} (judged : w.listening.verdict len pktType = .closed)
      (shut : v.ps2NetfsFd = -1) : Called len pktType w ⟨some none, v, as⟩
  | refused {v : World} {as : List Act} (judged : w.listening.verdict len pktType = .refused) (ends : v.Ends)
      (netfs : v.ps2NetfsFd = w.ps2NetfsFd) : Called len pktType w ⟨some none, v, as⟩
  | passed {v : World} {as : List Act} (judged : w.listening.verdict len pktType = .passed) (ends : v.Ends)
      (netfs : v.ps2NetfsFd = w.ps2NetfsFd) (next : v.listening = w.listening.next)
      (got : taken w.ps2NetfsFd as = w.listening.stream.take w.listening.asked) :
      Called len pktType w ⟨some (some v.recvPacket), v, as⟩

theorem called (fields : List (Nat × List Byte)) (size len : Nat) (pktType : Word) {w : World} (h : w.Ends) :
    Called len pktType w ((netfsCall fields (sendRequest size) len pktType).run w) := by
  let v : World := { w with sendPacket := w.sendPacket.stores fields }
  obtain ⟨u, as, hsend, hfd, hl, he, ht⟩ := sendRequest_returns size (v := v) ⟨h.stop, h.sink⟩
  have hrun : (netfsCall fields (sendRequest size) len pktType).run w =
      (((ps2netfsAcceptPkt u.ps2NetfsFd len pktType).run u).andThen fun accepted t =>
        if accepted = 0 then ⟨some none, t, []⟩ else ⟨some (some t.recvPacket), t, []⟩).after as := by
    rw [netfsCall, Prog.run_bind]
    change ((sendRequest size >>= _ : Io (Option Mem)).run v).after [] = _
    rw [Prog.run_bind, hsend, Result.andThen_mk_some]
    simp only [if_true, Prog.run_bind, Prog.run_get, Result.andThen_mk_some, Result.after, List.nil_append]
    refine congrArg (fun f => Result.after as (Result.andThen ((ps2netfsAcceptPkt u.ps2NetfsFd len pktType).run u) f))
      (funext fun accepted => funext fun t => ?_)
    by_cases h0 : accepted = 0
    · simp only [if_pos h0]
      rfl
    · simp only [if_neg h0]
      rfl
  have hheard := heard len pktType he
  rw [hrun]
  rw [hfd] at hheard ⊢
  generalize (ps2netfsAcceptPkt v.ps2NetfsFd len pktType).run u = r at hheard ⊢
  cases hheard with
  | closed judged shut => exact .closed (hl ▸ judged) shut
  | refused judged ends netfs => exact .refused (hl ▸ judged) ends (netfs.trans hfd)
  | @passed x t bs judged ends netfs nonzero next got =>
    rw [Result.andThen_mk_some, if_neg nonzero, Result.after_mk, Result.after_mk, List.append_nil]
    refine .passed (hl ▸ judged) ends (netfs.trans hfd) (next.trans (congrArg Listening.next hl)) ?_
    rw [hfd, hl] at got
    rw [taken_append, show taken w.ps2NetfsFd as = [] from ht, List.nil_append]
    exact got

end Pksh
