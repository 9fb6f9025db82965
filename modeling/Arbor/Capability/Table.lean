import Arbor.Capability.Contract

/-!
# The capability table

Every capability there is. A call of a target that the table does not name reaches nothing outside
the language.
-/

namespace Arbor

namespace Contract

/-- The contracts of all capabilities. -/
def table : List Contract :=
  [
    ⟨"math.add", "math", "VAL031", [⟨.int, "VAL032"⟩, ⟨.int, "VAL033"⟩], .int⟩,
    ⟨"console.print", "console", "VAL034", [⟨.string, "VAL035"⟩], .void⟩,
    ⟨"io.print", "io", "VAL080", [⟨.string, "VAL081"⟩], .void⟩,
    ⟨"io.write", "io", "VAL082", [⟨.string, "VAL083"⟩], .void⟩,
    ⟨"io.readLine", "io", "VAL084", [], .string⟩,
    ⟨"io.readAllStdin", "io", "VAL085", [], .string⟩,
    ⟨"io.readFile", "io", "VAL086", [⟨.string, "VAL087"⟩], .string⟩,
    ⟨"io.fileExists", "io", "VAL088", [⟨.string, "VAL089"⟩], .bool⟩,
    ⟨"io.pathExists", "io", "VAL090", [⟨.string, "VAL091"⟩], .bool⟩,
    ⟨"io.makeDir", "io", "VAL092", [⟨.string, "VAL093"⟩], .void⟩,
    ⟨"io.writeFile", "io", "VAL094", [⟨.string, "VAL095"⟩, ⟨.string, "VAL096"⟩], .void⟩,
    ⟨"compiler.parse", "compiler", "VAL070", [⟨.string, "VAL071"⟩], .node⟩,
    ⟨"compiler.format", "compiler", "VAL072", [⟨.node, "VAL073"⟩], .string⟩,
    ⟨"compiler.validate", "compiler", "VAL074", [⟨.node, "VAL075"⟩], .node⟩,
    ⟨"compiler.emitBytecode", "compiler", "VAL076", [⟨.node, "VAL077"⟩], .node⟩,
    ⟨"compiler.run", "compiler", "VAL078", [⟨.node, "VAL079"⟩], .unknown⟩,
    ⟨"sys.net_listen", "sys", "VAL123", [⟨.int, "VAL124"⟩], .int⟩,
    ⟨"sys.net_listen_tls", "sys", "VAL140",
      [⟨.int, "VAL141"⟩, ⟨.string, "VAL142"⟩, ⟨.string, "VAL143"⟩], .int⟩,
    ⟨"sys.net_accept", "sys", "VAL125", [⟨.int, "VAL126"⟩], .int⟩,
    ⟨"sys.net_readHeaders", "sys", "VAL127", [⟨.int, "VAL128"⟩], .string⟩,
    ⟨"sys.net_write", "sys", "VAL129", [⟨.int, "VAL130"⟩, ⟨.string, "VAL131"⟩], .void⟩,
    ⟨"sys.net_close", "sys", "VAL132", [⟨.int, "VAL133"⟩], .void⟩,
    ⟨"sys.net_tcpListen", "sys", "VAL210", [⟨.string, "VAL208"⟩, ⟨.int, "VAL209"⟩], .int⟩,
    ⟨"sys.net_tcpListenTls", "sys", "VAL215",
      [⟨.string, "VAL211"⟩, ⟨.int, "VAL212"⟩, ⟨.string, "VAL213"⟩, ⟨.string, "VAL214"⟩], .int⟩,
    ⟨"sys.net_tcpAccept", "sys", "VAL216", [⟨.int, "VAL217"⟩], .int⟩,
    ⟨"sys.net_tcpRead", "sys", "VAL220", [⟨.int, "VAL218"⟩, ⟨.int, "VAL219"⟩], .string⟩,
    ⟨"sys.net_tcpWrite", "sys", "VAL223", [⟨.int, "VAL221"⟩, ⟨.string, "VAL222"⟩], .int⟩,
    ⟨"sys.net_udpBind", "sys", "VAL239", [⟨.string, "VAL237"⟩, ⟨.int, "VAL238"⟩], .int⟩,
    ⟨"sys.net_udpRecv", "sys", "VAL242", [⟨.int, "VAL240"⟩, ⟨.int, "VAL241"⟩], .node⟩,
    ⟨"sys.net_udpSend", "sys", "VAL247",
      [⟨.int, "VAL243"⟩, ⟨.string, "VAL244"⟩, ⟨.int, "VAL245"⟩, ⟨.string, "VAL246"⟩], .int⟩,
    ⟨"sys.ui_createWindow", "sys", "VAL251",
      [⟨.string, "VAL248"⟩, ⟨.int, "VAL249"⟩, ⟨.int, "VAL250"⟩], .int⟩,
    ⟨"sys.ui_beginFrame", "sys", "VAL252", [⟨.int, "VAL253"⟩], .void⟩,
    ⟨"sys.ui_drawRect", "sys", "VAL260",
      [⟨.int, "VAL254"⟩, ⟨.int, "VAL255"⟩, ⟨.int, "VAL256"⟩, ⟨.int, "VAL257"⟩, ⟨.int, "VAL258"⟩,
        ⟨.string, "VAL259"⟩], .void⟩,
    ⟨"sys.ui_drawText", "sys", "VAL267",
      [⟨.int, "VAL261"⟩, ⟨.int, "VAL262"⟩, ⟨.int, "VAL263"⟩, ⟨.string, "VAL264"⟩,
        ⟨.string, "VAL265"⟩, ⟨.int, "VAL266"⟩], .void⟩,
    ⟨"sys.ui_drawLine", "sys", "VAL283",
      [⟨.int, "VAL276"⟩, ⟨.int, "VAL277"⟩, ⟨.int, "VAL278"⟩, ⟨.int, "VAL279"⟩, ⟨.int, "VAL280"⟩,
        ⟨.string, "VAL281"⟩, ⟨.int, "VAL282"⟩], .void⟩,
    ⟨"sys.ui_drawEllipse", "sys", "VAL290",
      [⟨.int, "VAL284"⟩, ⟨.int, "VAL285"⟩, ⟨.int, "VAL286"⟩, ⟨.int, "VAL287"⟩, ⟨.int, "VAL288"⟩,
        ⟨.string, "VAL289"⟩], .void⟩,
    ⟨"sys.ui_drawPath", "sys", "VAL295",
      [⟨.int, "VAL291"⟩, ⟨.string, "VAL292"⟩, ⟨.string, "VAL293"⟩, ⟨.int, "VAL294"⟩], .void⟩,
    ⟨"sys.ui_drawPolyline", "sys", "VAL300",
      [⟨.int, "VAL296"⟩, ⟨.string, "VAL297"⟩, ⟨.string, "VAL298"⟩, ⟨.int, "VAL299"⟩], .void⟩,
    ⟨"sys.ui_drawPolygon", "sys", "VAL305",
      [⟨.int, "VAL301"⟩, ⟨.string, "VAL302"⟩, ⟨.string, "VAL303"⟩, ⟨.int, "VAL304"⟩], .void⟩,
    ⟨"sys.ui_drawTextPath", "sys", "VAL311",
      [⟨.int, "VAL306"⟩, ⟨.string, "VAL307"⟩, ⟨.string, "VAL308"⟩, ⟨.string, "VAL309"⟩,
        ⟨.int, "VAL310"⟩], .void⟩,
    ⟨"sys.ui_drawRectPaint", "sys", "VAL321",
      [⟨.int, "VAL312"⟩, ⟨.int, "VAL313"⟩, ⟨.int, "VAL314"⟩, ⟨.int, "VAL315"⟩, ⟨.int, "VAL316"⟩,
        ⟨.string, "VAL317"⟩, ⟨.string, "VAL318"⟩, ⟨.int, "VAL319"⟩, ⟨.int, "VAL320"⟩], .void⟩,
    ⟨"sys.ui_drawEllipsePaint", "sys", "VAL331",
      [⟨.int, "VAL322"⟩, ⟨.int, "VAL323"⟩, ⟨.int, "VAL324"⟩, ⟨.int, "VAL325"⟩, ⟨.int, "VAL326"⟩,
        ⟨.string, "VAL327"⟩, ⟨.string, "VAL328"⟩, ⟨.int, "VAL329"⟩, ⟨.int, "VAL330"⟩], .void⟩,
    ⟨"sys.ui_drawPolylinePaint", "sys", "VAL337",
      [⟨.int, "VAL332"⟩, ⟨.string, "VAL333"⟩, ⟨.string, "VAL334"⟩, ⟨.int, "VAL335"⟩,
        ⟨.int, "VAL336"⟩], .void⟩,
    ⟨"sys.ui_drawPolygonPaint", "sys", "VAL344",
      [⟨.int, "VAL338"⟩, ⟨.string, "VAL339"⟩, ⟨.string, "VAL340"⟩, ⟨.string, "VAL341"⟩,
        ⟨.int, "VAL342"⟩, ⟨.int, "VAL343"⟩], .void⟩,
    ⟨"sys.ui_drawPathPaint", "sys", "VAL352",
      [⟨.int, "VAL345"⟩, ⟨.string, "VAL346"⟩, ⟨.string, "VAL347"⟩, ⟨.string, "VAL348"⟩,
        ⟨.int, "VAL349"⟩, ⟨.int, "VAL350"⟩, ⟨.int, "VAL351"⟩], .void⟩,
    ⟨"sys.ui_drawTextPaint", "sys", "VAL360",
      [⟨.int, "VAL353"⟩, ⟨.int, "VAL354"⟩, ⟨.int, "VAL355"⟩, ⟨.string, "VAL356"⟩,
        ⟨.string, "VAL357"⟩, ⟨.int, "VAL358"⟩, ⟨.int, "VAL359"⟩], .void⟩,
    ⟨"sys.ui_filterBlur", "sys", "VAL368",
      [⟨.int, "VAL361"⟩, ⟨.string, "VAL362"⟩, ⟨.string, "VAL363"⟩, ⟨.int, "VAL364"⟩,
        ⟨.int, "VAL365"⟩, ⟨.int, "VAL366"⟩, ⟨.int, "VAL367"⟩], .void⟩,
    ⟨"sys.ui_groupPush", "sys", "VAL370", [⟨.int, "VAL369"⟩], .void⟩,
    ⟨"sys.ui_groupPop", "sys", "VAL372", [⟨.int, "VAL371"⟩], .void⟩,
    ⟨"sys.ui_translate", "sys", "VAL376",
      [⟨.int, "VAL373"⟩, ⟨.int, "VAL374"⟩, ⟨.int, "VAL375"⟩], .void⟩,
    ⟨"sys.ui_scale", "sys", "VAL380",
      [⟨.int, "VAL377"⟩, ⟨.int, "VAL378"⟩, ⟨.int, "VAL379"⟩], .void⟩,
    ⟨"sys.ui_rotate", "sys", "VAL383", [⟨.int, "VAL381"⟩, ⟨.int, "VAL382"⟩], .void⟩,
    ⟨"sys.ui_endFrame", "sys", "VAL268", [⟨.int, "VAL269"⟩], .void⟩,
    ⟨"sys.ui_pollEvent", "sys", "VAL270", [⟨.int, "VAL271"⟩], .node⟩,
    ⟨"sys.ui_present", "sys", "VAL272", [⟨.int, "VAL273"⟩], .void⟩,
    ⟨"sys.ui_closeWindow", "sys", "VAL274", [⟨.int, "VAL275"⟩], .void⟩,
    ⟨"sys.ui_getWindowSize", "sys", "VAL276", [⟨.int, "VAL277"⟩], .node⟩,
    ⟨"sys.crypto_base64Encode", "sys", "VAL224", [⟨.string, "VAL225"⟩], .string⟩,
    ⟨"sys.crypto_base64Decode", "sys", "VAL226", [⟨.string, "VAL227"⟩], .string⟩,
    ⟨"sys.crypto_sha1", "sys", "VAL228", [⟨.string, "VAL229"⟩], .string⟩,
    ⟨"sys.crypto_sha256", "sys", "VAL230", [⟨.string, "VAL231"⟩], .string⟩,
    ⟨"sys.crypto_hmacSha256", "sys", "VAL234",
      [⟨.string, "VAL232"⟩, ⟨.string, "VAL233"⟩], .string⟩,
    ⟨"sys.crypto_randomBytes", "sys", "VAL235", [⟨.int, "VAL236"⟩], .string⟩,
    ⟨"sys.console_write", "sys", "VAL183", [⟨.string, "VAL184"⟩], .void⟩,
    ⟨"sys.console_writeLine", "sys", "VAL185", [⟨.string, "VAL186"⟩], .void⟩,
    ⟨"sys.console_readLine", "sys", "VAL187", [], .string⟩,
    ⟨"sys.console_readAllStdin", "sys", "VAL188", [], .string⟩,
    ⟨"sys.console_writeErrLine", "sys", "VAL189", [⟨.string, "VAL190"⟩], .void⟩,
    ⟨"sys.process_cwd", "sys", "VAL193", [], .string⟩,
    ⟨"sys.process_envGet", "sys", "VAL191", [⟨.string, "VAL192"⟩], .string⟩,
    ⟨"sys.time_nowUnixMs", "sys", "VAL182", [], .int⟩,
    ⟨"sys.time_monotonicMs", "sys", "VAL201", [], .int⟩,
    ⟨"sys.time_sleepMs", "sys", "VAL202", [⟨.int, "VAL203"⟩], .void⟩,
    ⟨"sys.stdout_writeLine", "sys", "VAL134", [⟨.string, "VAL135"⟩], .void⟩,
    ⟨"sys.proc_exit", "sys", "VAL136", [⟨.int, "VAL137"⟩], .void⟩,
    ⟨"sys.process_argv", "sys", "VAL170", [], .node⟩,
    ⟨"sys.fs_readFile", "sys", "VAL138", [⟨.string, "VAL139"⟩], .string⟩,
    ⟨"sys.fs_fileExists", "sys", "VAL140", [⟨.string, "VAL141"⟩], .bool⟩,
    ⟨"sys.fs_readDir", "sys", "VAL204", [⟨.string, "VAL205"⟩], .node⟩,
    ⟨"sys.fs_stat", "sys", "VAL206", [⟨.string, "VAL207"⟩], .node⟩,
    ⟨"sys.fs_pathExists", "sys", "VAL197", [⟨.string, "VAL198"⟩], .bool⟩,
    ⟨"sys.fs_writeFile", "sys", "VAL194", [⟨.string, "VAL195"⟩, ⟨.string, "VAL196"⟩], .void⟩,
    ⟨"sys.fs_makeDir", "sys", "VAL199", [⟨.string, "VAL200"⟩], .void⟩,
    ⟨"sys.str_utf8ByteCount", "sys", "VAL142", [⟨.string, "VAL143"⟩], .int⟩,
    ⟨"sys.str_substring", "sys", "VAL281",
      [⟨.string, "VAL278"⟩, ⟨.int, "VAL279"⟩, ⟨.int, "VAL280"⟩], .string⟩,
    ⟨"sys.str_remove", "sys", "VAL285",
      [⟨.string, "VAL282"⟩, ⟨.int, "VAL283"⟩, ⟨.int, "VAL284"⟩], .string⟩,
    ⟨"sys.http_get", "sys", "VAL148", [⟨.string, "VAL149"⟩], .string⟩,
    ⟨"sys.platform", "sys", "VAL150", [], .string⟩,
    ⟨"sys.arch", "sys", "VAL151", [], .string⟩,
    ⟨"sys.os_version", "sys", "VAL152", [], .string⟩,
    ⟨"sys.runtime", "sys", "VAL153", [], .string⟩,
    ⟨"sys.vm_run", "sys", "VAL144",
      [⟨.node, "VAL145"⟩, ⟨.string, "VAL146"⟩, ⟨.node, "VAL147"⟩], .unknown⟩
  ]

/-- The contract of a target. -/
def lookup? (target : String) : Option Contract := table.find? (·.target == target)

end Contract

end Arbor
