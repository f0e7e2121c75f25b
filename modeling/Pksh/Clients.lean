import Pksh.ClientTable

/-! The table of clients. A client takes the first free slot, and the slots
visited are those up to `maxi`, which every client that leaves takes one from. -/

namespace Pksh

open Wire Traced

section Packed

variable {p : Shell} {cs : List Int}

theorem Packed.nonneg (h : Packed p cs) {x : Int} (hx : x ∈ p.world.standing ++ cs.reverse) : 0 ≤ x := (h.opened x hx).1

theorem Packed.length (_ : Packed p cs) : (p.world.standing ++ cs.reverse).length = 4 + cs.length := by
  simp only [World.standing, List.length_append, List.length_reverse, List.length_cons, List.length_nil]

theorem Packed.unique (h : Packed p cs) {i j : Nat} (h0 : 0 ≤ p.session.client i)
    (he : p.session.client j = p.session.client i) : j = i := by
  simp only [h.client] at h0 he
  exact getD_inj h.nodup h0 he

theorem Packed.slot (h : Packed p cs) {x : Int} (hx : x ∈ p.world.standing ++ cs.reverse) :
    ∃ i, p.session.client i = x ∧ i ≤ p.session.maxi ∧ i < maxClients ∧ (p.readied x).session.Visits i := by
  obtain ⟨i, hi, rfl⟩ := getD_of_mem hx
  have hlen := h.length
  have hroom := h.room
  have hmax := h.maxi
  have hc : p.session.client i = (p.world.standing ++ cs.reverse).getD i (-1) := by rw [h.client]
  have hm : maxClients = 10 := rfl
  refine ⟨i, hc, by omega, by omega, ?_, ?_, ?_⟩
  · change i ≤ p.session.maxi
    omega
  · change 0 ≤ p.session.client i
    exact hc ▸ h.nonneg hx
  · have hmem : p.session.client i ∈ p.session.masterSet := by
      rw [h.masterSet, hc]
      exact List.mem_toFinset.mpr hx
    exact Finset.mem_inter.mpr ⟨Finset.mem_singleton.mpr hc, hmem⟩

theorem Packed.seated (h : Packed p cs) : Seated p cs where
  seat fd hfd := by
    have hx : fd ∈ p.world.standing ++ cs.reverse := List.mem_append_right _ (List.mem_reverse.mpr hfd)
    obtain ⟨i, hi, hmax, _, _⟩ := h.slot hx
    refine ⟨h.masterSet ▸ List.mem_toFinset.mpr hx, i, hmax, hi, fun j hj => ?_⟩
    exact h.unique (hi ▸ h.nonneg hx) (hj.trans hi.symm)
  gone fd h0 hs hc := by
    have hx : fd ∉ p.world.standing ++ cs.reverse := by simp [hs, hc]
    refine ⟨fun hm => hx (List.mem_toFinset.mp (h.masterSet ▸ hm)), fun j hj => hx ?_⟩
    simp only [h.client] at hj
    exact hj ▸ (getD_mem (hj ▸ h0)).2

theorem sysAccept_run {w : World} {fd : Int} {k : Sock}
    (h : (w.os.accept w.now).filter (fun r => w.unused r.1) = some (fd, k)) :
    sysAccept.run w = ⟨some fd, w.tick.setDesc fd (some (.sock k)), [.accept fd]⟩ := by
  simp only [sysAccept, h]

theorem Packed.serveSlot_server (h : Packed p cs) (hl : cs.length < maxClients - 4) {fd : Int} {k : Sock} {i : Nat}
    (input : Input) (hi : p.session.client i = p.world.pkshSrvFd)
    (ha : (p.world.os.accept p.world.now).filter (fun r => p.world.unused r.1) = some (fd, k)) :
    (serveSlot input i (p.readied p.world.pkshSrvFd).session).run p.world =
      ⟨some ((p.readied p.world.pkshSrvFd).session.accepted (p.world.standing ++ cs.reverse).length fd),
        p.world.tick.setDesc fd (some (.sock k)), [.accept fd]⟩ := by
  have hst : p.world.standing.Nodup := (List.nodup_append.mp h.nodup).1
  simp only [World.standing, List.nodup_cons, List.mem_cons, List.not_mem_nil, or_false, not_or, not_false_eq_true,
    List.nodup_nil, and_true] at hst
  obtain ⟨⟨_, _, h0⟩, ⟨_, hlink⟩, hlog⟩ := hst
  have hc : (p.readied p.world.pkshSrvFd).session.client i = p.world.pkshSrvFd := hi
  have hf : (p.readied p.world.pkshSrvFd).session.freeSlot = some (p.world.standing ++ cs.reverse).length := by
    refine freeSlot_getD h.client (fun x hx => h.nonneg hx) ?_
    have hm : maxClients = 10 := rfl
    rw [h.length]
    omega
  simp only [serveSlot, Prog.run_bind, Prog.run_get, Result.andThen_mk_some, hc, if_neg (Ne.symm hlog),
    if_neg (Ne.symm h0), if_neg (Ne.symm hlink), if_true, acceptClient, sysAccept_run ha, hf, Prog.run_pure,
    Result.after_mk, List.nil_append, List.append_nil]

theorem Packed.connect (h : Packed p cs) (hl : cs.length < maxClients - 4) {fd : Int} {q : Shell}
    (ht : Turned p (.connect fd) q) : Packed q (fd :: cs) := by
  obtain ⟨⟨k, ha⟩, input, as, hrun⟩ := ht
  have hx : p.world.pkshSrvFd ∈ p.world.standing ++ cs.reverse := List.mem_append_left _ (by simp [World.standing])
  obtain ⟨i, hi, _, hmax, hv⟩ := h.slot hx
  obtain ⟨h0, hnone⟩ := World.unused_iff.mp (Option.filter_eq_some_iff.mp ha).2
  have hnew : fd ∉ p.world.standing ++ cs.reverse := fun hm => (h.opened fd hm).2 hnone
  have hu : ∀ j, p.session.client j = p.world.pkshSrvFd → j = i := fun j hj =>
    h.unique (hi ▸ h.nonneg hx) (hj.trans hi.symm)
  have hafter : ∀ j, i < j →
      ¬((p.readied p.world.pkshSrvFd).session.accepted (p.world.standing ++ cs.reverse).length fd).Visits j := by
    intro j hj hvis
    have hjc : Function.update p.session.client (p.world.standing ++ cs.reverse).length fd j = p.world.pkshSrvFd := by
      have := hvis.2.2
      simp only [Session.accepted, Shell.readied, Finset.mem_inter, Finset.mem_singleton] at this
      exact this.1
    by_cases hje : j = (p.world.standing ++ cs.reverse).length
    · rw [hje, Function.update_self] at hjc
      exact hnew (hjc ▸ hx)
    · rw [Function.update_of_ne hje] at hjc
      exact absurd (hu j hjc) (Nat.ne_of_gt hj)
  have hturn := turn_serves input h.doloop hmax hv hu (h.serveSlot_server hl input hi ha) hafter
  obtain rfl : q = _ := congrArg Result.state (hrun.symm.trans hturn)
  have happ : p.world.standing ++ (fd :: cs).reverse = p.world.standing ++ cs.reverse ++ [fd] := by
    rw [List.reverse_cons, List.append_assoc]
  refine ⟨?_, ?_, ?_, h.doloop, ?_, ?_, Nat.succ_le_of_lt hl⟩
  · change Function.update p.session.client (p.world.standing ++ cs.reverse).length fd =
      fun i => (p.world.standing ++ (fd :: cs).reverse).getD i (-1)
    rw [h.client, update_append, happ]
  · change max p.session.maxi (p.world.standing ++ cs.reverse).length = 3 + (cs.length + 1)
    rw [h.maxi, h.length]
    omega
  · change insert fd p.session.masterSet = (p.world.standing ++ (fd :: cs).reverse).toFinset
    rw [h.masterSet, happ]
    ext x
    rw [Finset.mem_insert, List.mem_toFinset, List.mem_toFinset, @List.mem_append _ x _ [fd], List.mem_singleton, or_comm]
  · change (p.world.standing ++ (fd :: cs).reverse).Nodup
    rw [happ]
    exact List.nodup_append.mpr ⟨h.nodup, List.nodup_singleton fd, fun a ha b hb => by
      rintro rfl
      exact hnew (List.mem_singleton.mp hb ▸ ha)⟩
  · intro x hm
    change x ∈ p.world.standing ++ (fd :: cs).reverse at hm
    rw [happ, List.mem_append, List.mem_singleton] at hm
    change 0 ≤ x ∧ Function.update p.world.desc fd (some (.sock k)) x ≠ none
    rcases hm with hm | rfl
    · rw [Function.update_of_ne (by rintro rfl; exact hnew hm)]
      exact h.opened x hm
    · rw [Function.update_self]
      exact ⟨h0, by simp⟩

theorem pkoSrvRead_ended {w : World} {fd : Int} (h : w.Ended fd) (hl : fd ≠ w.pkoSrvFd) :
    ∃ as, (pkoSrvRead fd).run w = ⟨some (-1), w.received fd (.recvPacket 0) pktHdrSize, as⟩ := by
  have hv : (w.received fd (.recvPacket 0) pktHdrSize).pkoSrvFd = w.pkoSrvFd := by
    rw [received_vars]
    rfl
  have he : (srvEof fd).run (w.received fd (.recvPacket 0) pktHdrSize) =
      ⟨some (-1), w.received fd (.recvPacket 0) pktHdrSize, []⟩ := by
    simp only [srvEof, Prog.run_bind, Prog.run_get, Result.andThen_mk_some, hv, if_neg hl, Prog.run_pure,
      Result.after_mk, List.append_nil]
  rw [pkoSrvRead, packetRead_short h.1]
  cases hs : (w.inflow fd).stop with
  | full => exact absurd hs Inflow.stop_ne_full
  | eof => exact ⟨_, by simp only [he, Result.after_mk]; rfl⟩
  | dropped e => exact ⟨_, rfl⟩
  | never => exact absurd hs h.2

theorem Packed.disconnect (h : Packed p cs) {fd : Int} (hm : fd ∈ cs) {q : Shell}
    (ht : Turned p (.disconnect fd) q) : ∃ i, p.session.client i = fd ∧
      q.session = (p.readied fd).session.dropped i ∧ q.world.standing = p.world.standing ∧
      ∀ x, x ≠ fd → p.world.desc x ≠ none → q.world.desc x ≠ none := by
  obtain ⟨hend, input, as, hrun⟩ := ht
  have hx : fd ∈ p.world.standing ++ cs.reverse := List.mem_append_right _ (List.mem_reverse.mpr hm)
  obtain ⟨i, hi, _, hmax, hv⟩ := h.slot hx
  have hst : fd ∉ p.world.standing := fun hs =>
    (List.nodup_append.mp h.nodup).2.2 fd hs fd (List.mem_reverse.mpr hm) rfl
  simp only [World.standing, List.mem_cons, List.not_mem_nil, or_false, not_or] at hst
  obtain ⟨h0, hlink, hlog, hsrv⟩ := hst
  obtain ⟨as', hread⟩ := pkoSrvRead_ended hend hlink
  have hu : ∀ j, p.session.client j = fd → j = i := fun j hj => h.unique (hi ▸ h.nonneg hx) (hj.trans hi.symm)
  have hc : (p.readied fd).session.client i = fd := hi
  let v := p.world.received fd (.recvPacket 0) pktHdrSize
  have hserve : (serveSlot input i (p.readied fd).session).run p.world =
      ⟨some ((p.readied fd).session.dropped i), v.tick.setDesc fd none, as' ++ [.close fd]⟩ := by
    simp only [serveSlot, Prog.run_bind, Prog.run_get, Result.andThen_mk_some, hc, if_neg hlog, if_neg h0,
      if_neg hlink, if_neg hsrv, serveClient, hread, show (-1 : Int) < 0 by decide, if_true, sysClose, Prog.run_pure,
      Result.after_mk, List.nil_append, List.append_nil]
    rfl
  have hafter : ∀ j, i < j → ¬((p.readied fd).session.dropped i).Visits j := by
    intro j hj hvis
    have hjc : Function.update p.session.client i (-1) j = fd := by
      have := hvis.2.2
      simp only [Session.dropped, Shell.readied, Finset.mem_inter, Finset.mem_singleton] at this
      exact this.1
    rw [Function.update_of_ne (Nat.ne_of_gt hj)] at hjc
    exact absurd (hu j hjc) (Nat.ne_of_gt hj)
  have hturn := turn_serves input h.doloop hmax hv hu hserve hafter
  obtain rfl : q = _ := congrArg Result.state (hrun.symm.trans hturn)
  have hacc := received_accounted p.world fd (.recvPacket 0) pktHdrSize
  have hvars : v.pkoSrvFd = p.world.pkoSrvFd := by
    change (p.world.received fd (.recvPacket 0) pktHdrSize).pkoSrvFd = _
    rw [received_vars]
    rfl
  refine ⟨i, hi, rfl, ?_, fun x hne hd => ?_⟩
  · change [0, v.pkoSrvFd, v.logFd, v.pkshSrvFd] = _
    rw [hvars, hacc.logFd, hacc.pkshSrvFd]
    rfl
  · obtain ⟨d, hd⟩ := Option.ne_none_iff_exists'.mp hd
    obtain ⟨d', hd', _⟩ := hacc.kept x d hd (by simp [Buf.stored])
    change Function.update v.desc fd none x ≠ none
    rw [Function.update_of_ne hne, hd']
    simp

theorem Packed.last_slot {c : Int} (h : Packed p (c :: cs)) : p.session.client p.session.maxi = c := by
  have hlen : (p.world.standing ++ cs.reverse).length = 3 + (c :: cs).length := by
    simp only [World.standing, List.length_append, List.length_reverse, List.length_cons, List.length_nil]
    omega
  have happ : p.world.standing ++ (c :: cs).reverse = p.world.standing ++ cs.reverse ++ [c] := by
    rw [List.reverse_cons, List.append_assoc]
  rw [h.client, h.maxi, happ, ← hlen]
  simp

theorem Packed.disconnect_last (h : Packed p cs) {fd : Int} (hm : cs.head? = some fd) {q : Shell}
    (ht : Turned p (.disconnect fd) q) : Packed q (cs.erase fd) := by
  obtain ⟨cs, rfl⟩ : ∃ cs', cs = fd :: cs' := List.head?_eq_some_iff.mp hm
  obtain ⟨i, hi, hs, hst, hdesc⟩ := h.disconnect List.mem_cons_self ht
  have happ : p.world.standing ++ (fd :: cs).reverse = p.world.standing ++ cs.reverse ++ [fd] := by
    rw [List.reverse_cons, List.append_assoc]
  have hn : (p.world.standing ++ cs.reverse ++ [fd]).Nodup := happ ▸ h.nodup
  have hnew : fd ∉ p.world.standing ++ cs.reverse := fun hx =>
    (List.nodup_append.mp hn).2.2 fd hx fd (List.mem_singleton_self fd) rfl
  have hmax := h.maxi
  have hlen : (p.world.standing ++ cs.reverse).length = p.session.maxi := by
    rw [hmax, List.length_cons]
    simp only [World.standing, List.length_append, List.length_reverse, List.length_cons, List.length_nil]
    omega
  have hx : fd ∈ p.world.standing ++ (fd :: cs).reverse := by simp
  have hieq : p.session.maxi = i := h.unique (hi ▸ h.nonneg hx) (h.last_slot.trans hi.symm)
  rw [List.erase_cons_head]
  refine ⟨?_, ?_, ?_, ?_, ?_, ?_, ?_⟩
  · rw [hs, hst]
    change Function.update p.session.client i (-1) = _
    rw [h.client, happ, ← hieq, ← hlen, update_last]
  · rw [hs]
    change p.session.maxi - 1 = 3 + cs.length
    rw [hmax, List.length_cons]
    omega
  · rw [hs, hst]
    change p.session.masterSet.erase (p.session.client i) = _
    rw [hi, h.masterSet, happ]
    ext x
    rw [Finset.mem_erase, List.mem_toFinset, List.mem_toFinset, List.mem_append, List.mem_singleton]
    refine ⟨fun ⟨hne, hx⟩ => hx.resolve_right hne, fun hmem => ⟨fun he => hnew (he ▸ hmem), .inl hmem⟩⟩
  · rw [hs]
    exact h.doloop
  · rw [hst]
    exact (List.nodup_append.mp hn).1
  · intro x hm
    rw [hst] at hm
    have hmem : x ∈ p.world.standing ++ (fd :: cs).reverse := happ ▸ List.mem_append_left _ hm
    exact ⟨h.nonneg hmem, hdesc x (fun he => hnew (he ▸ hm)) (h.opened x hmem).2⟩
  · exact Nat.le_of_succ_le h.room

theorem Packed.disconnect_other (h : Packed p cs) {fd : Int} (hm : fd ∈ cs) (hl : cs.head? ≠ some fd) {q : Shell}
    (ht : Turned p (.disconnect fd) q) : ¬Seated q (cs.erase fd) := by
  obtain ⟨i, hi, hs, _, _⟩ := h.disconnect hm ht
  obtain ⟨c, cs, rfl⟩ := List.exists_cons_of_ne_nil (List.ne_nil_of_mem hm)
  have hne : c ≠ fd := by
    rintro rfl
    exact hl rfl
  have hc : c ∈ (c :: cs).erase fd := (List.mem_erase_of_ne hne).mpr List.mem_cons_self
  have hc0 : 0 ≤ c := h.nonneg (List.mem_append_right _ (List.mem_reverse.mpr List.mem_cons_self))
  intro hseat
  obtain ⟨j, hj, hjc, _⟩ := (hseat.seat c hc).2
  have hjmax : j ≤ p.session.maxi - 1 := by
    rw [hs] at hj
    exact hj
  have hji : p.session.client j = c := by
    rw [hs] at hjc
    change Function.update p.session.client i (-1) j = c at hjc
    by_cases he : j = i
    · rw [he, Function.update_self] at hjc
      omega
    · rwa [Function.update_of_ne he] at hjc
  have hlast : p.session.maxi = j := h.unique (hji ▸ hc0) (h.last_slot.trans hji.symm)
  have hmax := h.maxi
  rw [List.length_cons] at hmax
  omega

end Packed

theorem contactPs2_keeps (dumpscreen : Bool) : Sat KeepsLink (contactPs2 dumpscreen) ∧ Sat Holds (contactPs2 dumpscreen) := by
  have hreq : ∀ fd, Sat KeepsLink ((if dumpscreen then pkoDump2screenReq else pkoDump2pcReq) fd) ∧
      Sat Holds ((if dumpscreen then pkoDump2screenReq else pkoDump2pcReq) fd) := by
    intro fd
    cases dumpscreen with
    | true => exact ⟨keepsLink_sendReq _ _ _, .sendReq _ _ _⟩
    | false => exact ⟨keepsLink_sendReq _ _ _, .sendReq _ _ _⟩
  have hlink : Sat KeepsLink openNetfs :=
    keepsLink_cmdListener.bind fun _ => Sat.bind (fun _ => rfl) fun _ => fun _ => rfl
  have hheld : Sat Holds openNetfs :=
    Holds.cmdListener.bind fun _ => (Holds.setVars _).bind fun _ => .emit
  exact ⟨hlink.bind fun _ => (keepsLink_command fun fd => (hreq fd).1).bind fun _ => .pure (),
    hheld.bind fun _ => (Holds.command fun fd => (hreq fd).2).bind fun _ => .pure ()⟩

theorem startUp_link {w w' : World} {s s' : Session} {dumpscreen : Bool} {as : List Act}
    (h : (startUp dumpscreen s).run w = ⟨some s', w', as⟩) (hd : s'.doloop = true) :
    s' = s.started w'.standing ∧ 0 ≤ w'.pkoSrvFd ∧ w.desc w'.pkoSrvFd = none ∧ w'.desc w'.pkoSrvFd ≠ none ∧
      ∀ x, w.desc x ≠ none → w'.desc x ≠ none := by
  obtain ⟨v, w₁, as₁, hrun, hvars, _⟩ := cmdListener_listened w
  have hhold : Holds w as₁ w₁ := by
    have := Holds.cmdListener w
    rwa [hrun] at this
  simp only [startUp, Prog.run_bind, hrun, Result.andThen_mk_some, setVars] at h
  by_cases hv : v < 0
  · rw [if_pos hv, Prog.run_pure] at h
    obtain rfl : { s with doloop := false } = s' := by simpa using congrArg Result.value h
    cases hd
  · rw [if_neg hv, Prog.run_bind] at h
    let w₂ : World := { w₁ with pkoSrvFd := v }
    change Result.after as₁ (Result.after [] (((contactPs2 dumpscreen).run w₂).andThen fun _ =>
      (do let w ← Prog.get; pure (s.started w.standing) : Io Session).run)) = _ at h
    have hlink : ((contactPs2 dumpscreen).run w₂).state.pkoSrvFd = v := (contactPs2_keeps dumpscreen).1 w₂
    have hkeep := (contactPs2_keeps dumpscreen).2 w₂
    cases hc : ((contactPs2 dumpscreen).run w₂).value with
    | none =>
      rw [Result.andThen_none _ hc] at h
      cases congrArg Result.value h
    | some u =>
      rw [Result.andThen_some _ hc] at h
      obtain rfl : ((contactPs2 dumpscreen).run w₂).state = w' := congrArg Result.state h
      have hs : some (s.started ((contactPs2 dumpscreen).run w₂).state.standing) = some s' := congrArg Result.value h
      obtain ⟨hnone, hopen⟩ := cmdListener_open hrun (Int.not_lt.mp hv)
      rw [hlink]
      exact ⟨(Option.some.inj hs).symm, Int.not_lt.mp hv, hnone, (hkeep v hopen).2, fun x hx => (hkeep x (hhold x hx).2).2⟩

theorem start_run {p q : Shell} {dumpscreen : Bool} {as : List Act}
    (h : (Event.start dumpscreen).exec.run p = ⟨some (), q, as⟩) :
    (startUp dumpscreen p.session).run p.world = ⟨some q.session, q.world, as⟩ := by
  have hv := Event.exec_value (.start dumpscreen) p (congrArg Result.value h)
  have hw := Event.exec_world (.start dumpscreen) p
  have ha := Event.exec_acts (.start dumpscreen) p
  rw [h] at hv hw ha
  change ((startUp dumpscreen p.session).run p.world).value = some q.session at hv
  change q.world = ((startUp dumpscreen p.session).run p.world).state at hw
  change as = ((startUp dumpscreen p.session).run p.world).acts at ha
  rw [hw, ha, ← hv]

theorem packed_start {p q : Shell} {dumpscreen : Bool} {as : List Act} (hp : p.Initial)
    (h : (Event.start dumpscreen).exec.run p = ⟨some (), q, as⟩) (hd : q.session.doloop = true) : Packed q [] := by
  have hrun := start_run h
  have hacc : Accounted p.world as q.world := by
    have := (startUp dumpscreen p.session).keeps p.world
    rwa [hrun] at this
  obtain ⟨hs, h0, hnone, hopen, hhold⟩ := startUp_link hrun hd
  have hlog := hacc.logFd
  have hsrv := hacc.pkshSrvFd
  have hne : ∀ x, p.world.desc x ≠ none → q.world.pkoSrvFd ≠ x := fun x hx he => hx (he ▸ hnone)
  have h1 : p.world.desc 0 ≠ none := by simp [hp.stdin]
  have h2 : p.world.desc p.world.logFd ≠ none := by simp [hp.log.2]
  have h3 : p.world.desc p.world.pkshSrvFd ≠ none := by simp [hp.server.2]
  refine ⟨?_, ?_, ?_, hd, ?_, ?_, Nat.zero_le _⟩
  · rw [hs, List.reverse_nil, List.append_nil]
    rfl
  · rw [hs]
    rfl
  · rw [hs, List.reverse_nil, List.append_nil]
    rfl
  · have hl := hp.log.1
    have hv := hp.server.1
    rw [List.reverse_nil, List.append_nil]
    simp only [World.standing, hlog, hsrv, List.nodup_cons, List.mem_cons, List.not_mem_nil, or_false, not_or,
      not_false_eq_true, List.nodup_nil, and_true]
    exact ⟨⟨(hne 0 h1).symm, by omega, by omega⟩, ⟨hne _ h2, hne _ h3⟩, hp.distinct⟩
  · intro x hx
    rw [List.reverse_nil, List.append_nil] at hx
    simp only [World.standing, hlog, hsrv, List.mem_cons, List.not_mem_nil, or_false] at hx
    rcases hx with rfl | rfl | rfl | rfl
    · exact ⟨Int.le_refl 0, hhold 0 h1⟩
    · exact ⟨h0, hopen⟩
    · exact ⟨Int.le_of_lt hp.log.1, hhold _ h2⟩
    · exact ⟨Int.le_of_lt hp.server.1, hhold _ h3⟩

/-- In every run of clients that come and go every connected client is served
and every other one forgotten exactly when the one that leaves is always the
last that came. -/
theorem seated_iff {es : List Client} {p : Nat → Shell} (h0 : Packed (p 0) [])
    (hadm : ∀ k (h : k < es.length), es[k].Admissible (rosterAt es k))
    (hrun : ∀ k (h : k < es.length), Turned (p k) es[k] (p (k + 1))) :
    (∀ k ≤ es.length, Seated (p k) (rosterAt es k)) ↔
      ∀ k (h : k < es.length), es[k].Last (rosterAt es k) := by
  have hnext : ∀ k (h : k < es.length), rosterAt es (k + 1) = roster (rosterAt es k) es[k] := by
    intro k h
    rw [rosterAt, List.take_add_one, List.getElem?_eq_getElem h, Option.toList_some, List.foldl_append]
    rfl
  refine reached_iff (fun x c y => Turned x.1 c y.1 ∧ c.Admissible x.2 ∧ y.2 = roster x.2 c)
    (fun x => Packed x.1 x.2) (fun x => Seated x.1 x.2) (fun x c => c.Last x.2) (fun _ h => h.seated) ?_ ?_
    (fun k => (p k, rosterAt es k)) (fun k h => ⟨hrun k h, hadm k h, hnext k h⟩) h0
  · rintro ⟨s, cs⟩ c ⟨t, cs'⟩ ⟨ht, ha, rfl⟩ hp hc
    cases c with
    | connect fd => exact hp.connect ha ht
    | disconnect fd => exact hp.disconnect_last hc ht
  · rintro ⟨s, cs⟩ c ⟨t, cs'⟩ ⟨ht, ha, rfl⟩ hp hc
    cases c with
    | connect fd => exact absurd trivial hc
    | disconnect fd => exact hp.disconnect_other ha hc ht

def turnOf (c : Client) (p : Shell) : Result Shell Act Unit :=
  (runAll Event.exec (turnEvents (some (c.ready p.world), ⟨.nothing, []⟩))).run p

def afterTurns (p : Shell) (es : List Client) (k : Nat) : Shell :=
  (es.take k).foldl (fun p c => (turnOf c p).state) p

theorem turned_of_value {c : Client} {p : Shell} (ho : c.Occurs p.world) (hv : (turnOf c p).value = some ()) :
    Turned p c (turnOf c p).state :=
  ⟨ho, ⟨.nothing, []⟩, _, by rw [← hv]; rfl⟩

/-- The host lets the sixth descriptor be a client, then the seventh, and so on;
they say nothing and leave. -/
def Host.visited : Host := { Host.refusing with accept := fun n => some (6 + n, ⟨⟨[], .eof⟩, ⟨[], .accepts⟩⟩) }

theorem occurs_connect {w : World} {n : Nat} (hos : w.os = .visited) (hn : w.now = n) (hu : w.unused (6 + n) = true) :
    (Client.connect (6 + n)).Occurs w := by
  refine ⟨⟨⟨[], .eof⟩, ⟨[], .accepts⟩⟩, Option.filter_eq_some_iff.mpr ⟨?_, hu⟩⟩
  rw [hos, hn]
  rfl

def waiting : Shell where
  world := .linked .visited 3 [(0, .plain), (3, .sock (.delivering [])), (4, .plain), (5, .plain)]
  session := Session.started ⟨fun _ => -1, 0, ∅, ∅, true, false, -1⟩ [0, 3, 4, 5]

theorem packed_waiting : Packed waiting [] where
  client := rfl
  maxi := rfl
  masterSet := rfl
  doloop := rfl
  nodup := by decide
  opened := by
    intro fd hfd
    have : fd = 0 ∨ fd = 3 ∨ fd = 4 ∨ fd = 5 := by simpa [waiting, World.standing, World.linked] using hfd
    rcases this with rfl | rfl | rfl | rfl <;> exact ⟨by decide, by simp [waiting, World.linked]⟩
  room := Nat.zero_le _

def firstLeaves : List Client := [.connect 6, .connect 7, .disconnect 6]

theorem turned_firstLeaves : ∀ k (h : k < firstLeaves.length),
    Turned (afterTurns waiting firstLeaves k) firstLeaves[k] (afterTurns waiting firstLeaves (k + 1))
  | 0, _ => turned_of_value (c := .connect 6) (occurs_connect (n := 0) rfl rfl (by decide +kernel)) (by decide +kernel)
  | 1, _ => turned_of_value (c := .connect 7) (occurs_connect (n := 1) rfl (by decide +kernel) (by decide +kernel))
      (by decide +kernel)
  | 2, _ => turned_of_value (c := .disconnect 6) ⟨by decide +kernel, by decide +kernel⟩ (by decide +kernel)

theorem admissible_firstLeaves : ∀ k (h : k < firstLeaves.length), firstLeaves[k].Admissible (rosterAt firstLeaves k)
  | 0, _ => show 0 < maxClients - 4 by decide
  | 1, _ => show 1 < maxClients - 4 by decide
  | 2, _ => show 6 ∈ [7, 6] by decide

/-- Of two clients the first leaves, and the second is no longer served. -/
theorem first_leaves_unseats : ¬∀ (es : List Client) (p : Nat → Shell), Packed (p 0) [] →
    (∀ k (h : k < es.length), es[k].Admissible (rosterAt es k)) →
    (∀ k (h : k < es.length), Turned (p k) es[k] (p (k + 1))) →
    ∀ k ≤ es.length, Seated (p k) (rosterAt es k) := by
  intro h
  have hseat := h firstLeaves (afterTurns waiting firstLeaves) packed_waiting admissible_firstLeaves
    turned_firstLeaves 3 (Nat.le_refl 3)
  have h1 : Packed (afterTurns waiting firstLeaves 1) [6] :=
    packed_waiting.connect (by decide) (turned_firstLeaves 0 (by decide))
  have h2 : Packed (afterTurns waiting firstLeaves 2) [7, 6] := h1.connect (by decide) (turned_firstLeaves 1 (by decide))
  exact h2.disconnect_other (by decide) (by decide) (turned_firstLeaves 2 (by decide)) hseat

theorem seated_iff_firstLeaves :
    (∀ k ≤ firstLeaves.length, Seated (afterTurns waiting firstLeaves k) (rosterAt firstLeaves k)) ↔
      ∀ k (h : k < firstLeaves.length), firstLeaves[k].Last (rosterAt firstLeaves k) :=
  seated_iff packed_waiting admissible_firstLeaves turned_firstLeaves

end Pksh
