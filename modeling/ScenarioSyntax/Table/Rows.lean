import ScenarioSyntax.Table.Action

/-!
The states of the parser. State 0 is the one in which tokens are skipped after an error; state 1 is
the first. Comments, which every state takes, are left out. Above each state stands the construct
that is being read, as far as it has been read.
-/

namespace ScenarioSyntax.Table

/-- A state with one action, whichever of these terminals follows. -/
def performing (a : Action) (ts : List Terminal) : Row := ⟨a.on ts, []⟩

/-- A state that takes one terminal. -/
def taking (t : Terminal) (s : StateId) : Row := ⟨[(t, .shift s)], []⟩

def rows : Array Row := #[
  -- 0  tokens are skipped
  ⟨Action.on .recover [.endOfText, .identifier, .string, .hashBracket, .rightBracket,
    .less, .greater, .leftBrace, .rightBrace, .comma, .equals, .rateConstant, .leftParen,
    .duration, .rightParen, .dots, .percent, .number, .comparisonOperator], []⟩,
  -- 1  nothing read yet
  ⟨[(.kwUse, .shift 5), (.hashBracket, .shift 6), (.kwScenario, .shift 7)],
    [(.sourceFile, 9), (.useDeclaration, 8), (.scenarioAttributes, 3), (.scenarioDeclaration, 4),
    (.useDeclarations, 2)]⟩,
  -- 2  sourceFile: useDeclarations
  ⟨[(.hashBracket, .shift 6), (.kwScenario, .shift 7)], [(.scenarioAttributes, 10),
    (.scenarioDeclaration, 11)]⟩,
  -- 3  sourceFile: scenarioAttributes
  ⟨[(.kwScenario, .shift 7)], [(.scenarioDeclaration, 12)]⟩,
  -- 4  sourceFile: scenarioDeclaration
  performing (.reduce .sourceFile 1 .plain) [.endOfText],
  -- 5  useDeclaration: "use"
  taking .string 13,
  -- 6  scenarioAttributes: "#["
  ⟨[(.identifier, .shift 16)], [(.annotationList, 14), (.annotationItem, 15)]⟩,
  -- 7  scenarioDeclaration: "scenario"
  taking .identifier 17,
  -- 8  useDeclarations: useDeclaration
  ⟨[(.kwUse, .shift 5), (.hashBracket, .reduce .useDeclarations 1 .plain),
    (.kwScenario, .reduce .useDeclarations 1 .plain)], [(.useDeclaration, 8),
    (.useDeclarations, 18)]⟩,
  -- 9  sourceFile
  performing .accept [.endOfText],
  -- 10  sourceFile: useDeclarations scenarioAttributes
  ⟨[(.kwScenario, .shift 7)], [(.scenarioDeclaration, 19)]⟩,
  -- 11  sourceFile: useDeclarations scenarioDeclaration
  performing (.reduce .sourceFile 2 .plain) [.endOfText],
  -- 12  sourceFile: scenarioAttributes scenarioDeclaration
  performing (.reduce .sourceFile 2 .plain) [.endOfText],
  -- 13  useDeclaration: "use" string
  performing (.reduce .useDeclaration 2 .useDeclaration) [.kwUse, .hashBracket,
    .kwScenario],
  -- 14  scenarioAttributes: "#[" annotationList
  taking .rightBracket 20,
  -- 15  annotationList: annotationItem
  ⟨[(.rightBracket, .reduce .annotationList 1 .plain),
    (.greater, .reduce .annotationList 1 .plain), (.comma, .shift 22)], [(.annotationTail, 21)]⟩,
  -- 16  annotationItem: identifier
  taking .equals 23,
  -- 17  scenarioDeclaration: "scenario" identifier
  ⟨[(.less, .shift 24), (.leftBrace, .shift 25)], []⟩,
  -- 18  useDeclarations: useDeclaration useDeclarations
  performing (.reduce .useDeclarations 2 .plain) [.hashBracket, .kwScenario],
  -- 19  sourceFile: useDeclarations scenarioAttributes scenarioDeclaration
  performing (.reduce .sourceFile 3 .plain) [.endOfText],
  -- 20  scenarioAttributes: "#[" annotationList "]"
  performing (.reduce .scenarioAttributes 3 .plain) [.kwScenario],
  -- 21  annotationList: annotationItem annotationTail
  performing (.reduce .annotationList 2 .plain) [.rightBracket, .greater],
  -- 22  annotationTail: ","
  ⟨[(.identifier, .shift 16)], [(.annotationItem, 26)]⟩,
  -- 23  annotationItem: identifier "="
  ⟨[(.string, .shift 30), (.duration, .shift 29), (.number, .shift 31),
    (.kwTrue, .shift 33), (.kwFalse, .shift 34)], [(.value, 27), (.literal, 28), (.boolean, 32)]⟩,
  -- 24  scenarioDeclaration: "scenario" identifier "<"
  ⟨[(.identifier, .shift 16)], [(.annotationList, 35), (.annotationItem, 15)]⟩,
  -- 25  scenarioDeclaration: "scenario" identifier "{"
  ⟨[(.kwTraffic, .shift 37)], [(.trafficBlock, 36)]⟩,
  -- 26  annotationTail: "," annotationItem
  ⟨[(.rightBracket, .reduce .annotationTail 2 .plain),
    (.greater, .reduce .annotationTail 2 .plain), (.comma, .shift 22)], [(.annotationTail, 38)]⟩,
  -- 27  annotationItem: identifier "=" value
  performing (.reduce .annotationItem 3 .assignment) [.rightBracket, .greater, .comma],
  -- 28  value: literal
  performing (.reduce .value 1 .plain) [.rightBracket, .greater, .comma],
  -- 29  value: duration
  performing (.reduce .value 1 .plain) [.rightBracket, .greater, .comma],
  -- 30  literal: string
  performing (.reduce .literal 1 .plain) [.rightBracket, .greater, .comma, .rightParen],
  -- 31  literal: number
  performing (.reduce .literal 1 .plain) [.rightBracket, .greater, .comma, .rightParen],
  -- 32  literal: boolean
  performing (.reduce .literal 1 .plain) [.rightBracket, .greater, .comma, .rightParen],
  -- 33  boolean: "true"
  performing (.reduce .boolean 1 .plain) [.rightBracket, .greater, .comma, .rightParen],
  -- 34  boolean: "false"
  performing (.reduce .boolean 1 .plain) [.rightBracket, .greater, .comma, .rightParen],
  -- 35  scenarioDeclaration: "scenario" identifier "<" annotationList
  taking .greater 39,
  -- 36  scenarioDeclaration: "scenario" identifier "{" trafficBlock
  ⟨[(.rightBrace, .shift 42), (.kwInjection, .shift 43), (.kwExpect, .shift 44)],
    [(.injectionBlock, 40), (.expectBlock, 41)]⟩,
  -- 37  trafficBlock: "traffic"
  taking .leftBrace 45,
  -- 38  annotationTail: "," annotationItem annotationTail
  performing (.reduce .annotationTail 3 .plain) [.rightBracket, .greater],
  -- 39  scenarioDeclaration: "scenario" identifier "<" annotationList ">"
  taking .leftBrace 46,
  -- 40  scenarioDeclaration: "scenario" identifier "{" trafficBlock injectionBlock
  ⟨[(.rightBrace, .shift 48), (.kwExpect, .shift 44)], [(.expectBlock, 47)]⟩,
  -- 41  scenarioDeclaration: "scenario" identifier "{" trafficBlock expectBlock
  taking .rightBrace 49,
  -- 42  scenarioDeclaration: "scenario" identifier "{" trafficBlock "}"
  performing (.reduce .scenarioDeclaration 5 .scenario) [.endOfText],
  -- 43  injectionBlock: "injection"
  taking .leftBrace 50,
  -- 44  expectBlock: "expect"
  taking .leftBrace 51,
  -- 45  trafficBlock: "traffic" "{"
  ⟨[(.rightBrace, .shift 53), (.kwStream, .shift 54)], [(.streamStatement, 55),
    (.streamStatements, 52)]⟩,
  -- 46  scenarioDeclaration: "scenario" identifier "<" annotationList ">" "{"
  ⟨[(.kwTraffic, .shift 37)], [(.trafficBlock, 56)]⟩,
  -- 47  scenarioDeclaration: … injectionBlock expectBlock
  taking .rightBrace 57,
  -- 48  scenarioDeclaration: "scenario" identifier "{" trafficBlock injectionBlock "}"
  performing (.reduce .scenarioDeclaration 6 .scenario) [.endOfText],
  -- 49  scenarioDeclaration: "scenario" identifier "{" trafficBlock expectBlock "}"
  performing (.reduce .scenarioDeclaration 6 .scenario) [.endOfText],
  -- 50  injectionBlock: "injection" "{"
  ⟨[(.rightBrace, .shift 59), (.kwHit, .shift 61), (.kwNearMiss, .shift 62),
    (.kwMiss, .shift 63)], [(.injectionCase, 64), (.modeKeyword, 60), (.injectionCases, 58)]⟩,
  -- 51  expectBlock: "expect" "{"
  ⟨[(.rightBrace, .shift 66), (.kwHit, .shift 68), (.kwNearMiss, .shift 69),
    (.kwMiss, .shift 70)], [(.expectStatement, 71), (.expectFunction, 67),
    (.expectStatements, 65)]⟩,
  -- 52  trafficBlock: "traffic" "{" streamStatements
  taking .rightBrace 72,
  -- 53  trafficBlock: "traffic" "{" "}"
  performing (.reduce .trafficBlock 3 .plain) [.rightBrace, .kwInjection, .kwExpect],
  -- 54  streamStatement: "stream"
  taking .identifier 73,
  -- 55  streamStatements: streamStatement
  ⟨[(.rightBrace, .reduce .streamStatements 1 .plain), (.kwStream, .shift 54)],
    [(.streamStatement, 55), (.streamStatements, 74)]⟩,
  -- 56  scenarioDeclaration: "scenario" identifier "<" annotationList ">" "{" trafficBlock
  ⟨[(.rightBrace, .shift 77), (.kwInjection, .shift 43), (.kwExpect, .shift 44)],
    [(.injectionBlock, 75), (.expectBlock, 76)]⟩,
  -- 57  scenarioDeclaration: … injectionBlock expectBlock "}"
  performing (.reduce .scenarioDeclaration 7 .scenario) [.endOfText],
  -- 58  injectionBlock: "injection" "{" injectionCases
  taking .rightBrace 78,
  -- 59  injectionBlock: "injection" "{" "}"
  performing (.reduce .injectionBlock 3 .plain) [.rightBrace, .kwExpect],
  -- 60  injectionCase: modeKeyword
  taking .less 79,
  -- 61  modeKeyword: "hit"
  performing (.reduce .modeKeyword 1 .plain) [.less],
  -- 62  modeKeyword: "near_miss"
  performing (.reduce .modeKeyword 1 .plain) [.less],
  -- 63  modeKeyword: "miss"
  performing (.reduce .modeKeyword 1 .plain) [.less],
  -- 64  injectionCases: injectionCase
  ⟨[(.rightBrace, .reduce .injectionCases 1 .plain), (.kwHit, .shift 61),
    (.kwNearMiss, .shift 62), (.kwMiss, .shift 63)], [(.injectionCase, 64), (.modeKeyword, 60),
    (.injectionCases, 80)]⟩,
  -- 65  expectBlock: "expect" "{" expectStatements
  taking .rightBrace 81,
  -- 66  expectBlock: "expect" "{" "}"
  performing (.reduce .expectBlock 3 .plain) [.rightBrace],
  -- 67  expectStatement: expectFunction
  taking .leftParen 82,
  -- 68  expectFunction: "hit"
  performing (.reduce .expectFunction 1 .plain) [.leftParen],
  -- 69  expectFunction: "near_miss"
  performing (.reduce .expectFunction 1 .plain) [.leftParen],
  -- 70  expectFunction: "miss"
  performing (.reduce .expectFunction 1 .plain) [.leftParen],
  -- 71  expectStatements: expectStatement
  ⟨[(.rightBrace, .reduce .expectStatements 1 .plain), (.kwHit, .shift 68),
    (.kwNearMiss, .shift 69), (.kwMiss, .shift 70)], [(.expectStatement, 71),
    (.expectFunction, 67), (.expectStatements, 83)]⟩,
  -- 72  trafficBlock: "traffic" "{" streamStatements "}"
  performing (.reduce .trafficBlock 4 .plain) [.rightBrace, .kwInjection, .kwExpect],
  -- 73  streamStatement: "stream" identifier
  taking .kwGen 84,
  -- 74  streamStatements: streamStatement streamStatements
  performing (.reduce .streamStatements 2 .plain) [.rightBrace],
  -- 75  scenarioDeclaration: … ">" "{" trafficBlock injectionBlock
  ⟨[(.rightBrace, .shift 86), (.kwExpect, .shift 44)], [(.expectBlock, 85)]⟩,
  -- 76  scenarioDeclaration: … ">" "{" trafficBlock expectBlock
  taking .rightBrace 87,
  -- 77  scenarioDeclaration: … ">" "{" trafficBlock "}"
  performing (.reduce .scenarioDeclaration 8 .parametrisedScenario) [.endOfText],
  -- 78  injectionBlock: "injection" "{" injectionCases "}"
  performing (.reduce .injectionBlock 4 .plain) [.rightBrace, .kwExpect],
  -- 79  injectionCase: modeKeyword "<"
  taking .percent 88,
  -- 80  injectionCases: injectionCase injectionCases
  performing (.reduce .injectionCases 2 .plain) [.rightBrace],
  -- 81  expectBlock: "expect" "{" expectStatements "}"
  performing (.reduce .expectBlock 4 .plain) [.rightBrace],
  -- 82  expectStatement: expectFunction "("
  taking .identifier 89,
  -- 83  expectStatements: expectStatement expectStatements
  performing (.reduce .expectStatements 2 .plain) [.rightBrace],
  -- 84  streamStatement: "stream" identifier "gen"
  ⟨[(.rateConstant, .shift 91), (.kwWave, .shift 95), (.kwBurst, .shift 96),
    (.kwTimeline, .shift 97)], [(.rateExpression, 90), (.waveExpression, 92),
    (.burstExpression, 93), (.timelineExpression, 94)]⟩,
  -- 85  scenarioDeclaration: … injectionBlock expectBlock
  taking .rightBrace 98,
  -- 86  scenarioDeclaration: … "{" trafficBlock injectionBlock "}"
  performing (.reduce .scenarioDeclaration 9 .parametrisedScenario) [.endOfText],
  -- 87  scenarioDeclaration: … ">" "{" trafficBlock expectBlock "}"
  performing (.reduce .scenarioDeclaration 9 .parametrisedScenario) [.endOfText],
  -- 88  injectionCase: modeKeyword "<" percent
  taking .greater 99,
  -- 89  expectStatement: expectFunction "(" identifier
  taking .rightParen 100,
  -- 90  streamStatement: "stream" identifier "gen" rateExpression
  performing (.reduce .streamStatement 4 .streamStatement) [.rightBrace, .kwStream],
  -- 91  rateExpression: rateConstant
  performing (.reduce .rateExpression 1 .plain) [.rightBrace, .kwStream],
  -- 92  rateExpression: waveExpression
  performing (.reduce .rateExpression 1 .plain) [.rightBrace, .kwStream],
  -- 93  rateExpression: burstExpression
  performing (.reduce .rateExpression 1 .plain) [.rightBrace, .kwStream],
  -- 94  rateExpression: timelineExpression
  performing (.reduce .rateExpression 1 .plain) [.rightBrace, .kwStream],
  -- 95  waveExpression: "wave"
  taking .leftParen 101,
  -- 96  burstExpression: "burst"
  taking .leftParen 102,
  -- 97  timelineExpression: "timeline"
  taking .leftBrace 103,
  -- 98  scenarioDeclaration: … injectionBlock expectBlock "}"
  performing (.reduce .scenarioDeclaration 10 .parametrisedScenario) [.endOfText],
  -- 99  injectionCase: modeKeyword "<" percent ">"
  taking .identifier 104,
  -- 100  expectStatement: expectFunction "(" identifier ")"
  taking .comparisonOperator 105,
  -- 101  waveExpression: "wave" "("
  taking .kwBase 106,
  -- 102  burstExpression: "burst" "("
  taking .kwBase 107,
  -- 103  timelineExpression: "timeline" "{"
  ⟨[(.rightBrace, .shift 109), (.duration, .shift 110)], [(.timelineSegment, 111),
    (.timelineSegments, 108)]⟩,
  -- 104  injectionCase: modeKeyword "<" percent ">" identifier
  taking .leftBrace 112,
  -- 105  expectStatement: expectFunction "(" identifier ")" comparisonOperator
  taking .percent 113,
  -- 106  waveExpression: "wave" "(" "base"
  taking .equals 114,
  -- 107  burstExpression: "burst" "(" "base"
  taking .equals 115,
  -- 108  timelineExpression: "timeline" "{" timelineSegments
  taking .rightBrace 116,
  -- 109  timelineExpression: "timeline" "{" "}"
  performing (.reduce .timelineExpression 3 .plain) [.rightBrace, .kwStream],
  -- 110  timelineSegment: duration
  taking .dots 117,
  -- 111  timelineSegments: timelineSegment
  ⟨[(.rightBrace, .reduce .timelineSegments 1 .plain), (.duration, .shift 110)],
    [(.timelineSegment, 111), (.timelineSegments, 118)]⟩,
  -- 112  injectionCase: modeKeyword "<" percent ">" identifier "{"
  ⟨[(.identifier, .shift 120)], [(.sequenceBlock, 119)]⟩,
  -- 113  expectStatement: expectFunction "(" identifier ")" comparisonOperator percent
  performing (.reduce .expectStatement 6 .expectStatement) [.rightBrace, .kwHit,
    .kwNearMiss, .kwMiss],
  -- 114  waveExpression: "wave" "(" "base" "="
  taking .rateConstant 121,
  -- 115  burstExpression: "burst" "(" "base" "="
  taking .rateConstant 122,
  -- 116  timelineExpression: "timeline" "{" timelineSegments "}"
  performing (.reduce .timelineExpression 4 .plain) [.rightBrace, .kwStream],
  -- 117  timelineSegment: duration ".."
  taking .duration 123,
  -- 118  timelineSegments: timelineSegment timelineSegments
  performing (.reduce .timelineSegments 2 .plain) [.rightBrace],
  -- 119  injectionCase: modeKeyword "<" percent ">" identifier "{" sequenceBlock
  taking .rightBrace 124,
  -- 120  sequenceBlock: identifier
  taking .kwSeq 125,
  -- 121  waveExpression: "wave" "(" "base" "=" rateConstant
  taking .comma 126,
  -- 122  burstExpression: "burst" "(" "base" "=" rateConstant
  taking .comma 127,
  -- 123  timelineSegment: duration ".." duration
  taking .equals 128,
  -- 124  injectionCase: modeKeyword "<" percent ">" identifier "{" sequenceBlock "}"
  performing (.reduce .injectionCase 8 .injectionCase) [.rightBrace, .kwHit,
    .kwNearMiss, .kwMiss],
  -- 125  sequenceBlock: identifier "seq"
  taking .leftBrace 129,
  -- 126  waveExpression: "wave" "(" "base" "=" rateConstant ","
  taking .kwAmp 130,
  -- 127  burstExpression: "burst" "(" "base" "=" rateConstant ","
  taking .kwPeak 131,
  -- 128  timelineSegment: duration ".." duration "="
  taking .rateConstant 132,
  -- 129  sequenceBlock: identifier "seq" "{"
  ⟨[(.kwUse, .shift 134)], [(.useStatement, 133)]⟩,
  -- 130  waveExpression: "wave" "(" "base" "=" rateConstant "," "amp"
  taking .equals 135,
  -- 131  burstExpression: "burst" "(" "base" "=" rateConstant "," "peak"
  taking .equals 136,
  -- 132  timelineSegment: duration ".." duration "=" rateConstant
  performing (.reduce .timelineSegment 5 .timelineSegment) [.rightBrace, .duration],
  -- 133  sequenceBlock: identifier "seq" "{" useStatement
  ⟨[(.kwUse, .shift 134), (.rightBrace, .shift 138)], [(.useStatement, 139),
    (.useStatements, 137)]⟩,
  -- 134  useStatement: "use"
  taking .leftParen 140,
  -- 135  waveExpression: "wave" "(" "base" "=" rateConstant "," "amp" "="
  taking .rateConstant 141,
  -- 136  burstExpression: "burst" "(" "base" "=" rateConstant "," "peak" "="
  taking .rateConstant 142,
  -- 137  sequenceBlock: identifier "seq" "{" useStatement useStatements
  taking .rightBrace 143,
  -- 138  sequenceBlock: identifier "seq" "{" useStatement "}"
  performing (.reduce .sequenceBlock 5 .sequenceBlock) [.rightBrace],
  -- 139  useStatements: useStatement
  ⟨[(.kwUse, .shift 134), (.rightBrace, .reduce .useStatements 1 .plain)],
    [(.useStatement, 139), (.useStatements, 144)]⟩,
  -- 140  useStatement: "use" "("
  ⟨[(.identifier, .shift 147)], [(.predicateList, 145), (.predicate, 146)]⟩,
  -- 141  waveExpression: "wave" "(" "base" "=" rateConstant "," "amp" "=" rateConstant
  taking .comma 148,
  -- 142  burstExpression: "burst" "(" "base" "=" rateConstant "," "peak" "=" rateConstant
  taking .comma 149,
  -- 143  sequenceBlock: identifier "seq" "{" useStatement useStatements "}"
  performing (.reduce .sequenceBlock 6 .sequenceBlock) [.rightBrace],
  -- 144  useStatements: useStatement useStatements
  performing (.reduce .useStatements 2 .plain) [.rightBrace],
  -- 145  useStatement: "use" "(" predicateList
  taking .rightParen 150,
  -- 146  predicateList: predicate
  ⟨[(.comma, .shift 152), (.rightParen, .reduce .predicateList 1 .plain)],
    [(.predicateTail, 151)]⟩,
  -- 147  predicate: identifier
  taking .equals 153,
  -- 148  waveExpression: "wave" "(" "base" "=" rateConstant "," "amp" "=" rateConstant ","
  taking .kwPeriod 154,
  -- 149  burstExpression: "burst" "(" "base" "=" rateConstant "," "peak" "=" rateConstant ","
  taking .kwEvery 155,
  -- 150  useStatement: "use" "(" predicateList ")"
  taking .kwWith 156,
  -- 151  predicateList: predicate predicateTail
  performing (.reduce .predicateList 2 .plain) [.rightParen],
  -- 152  predicateTail: ","
  ⟨[(.identifier, .shift 147)], [(.predicate, 157)]⟩,
  -- 153  predicate: identifier "="
  ⟨[(.string, .shift 30), (.number, .shift 31), (.kwTrue, .shift 33),
    (.kwFalse, .shift 34)], [(.literal, 158), (.boolean, 32)]⟩,
  -- 154  waveExpression: … "," "amp" "=" rateConstant "," "period"
  taking .equals 159,
  -- 155  burstExpression: … "," "peak" "=" rateConstant "," "every"
  taking .equals 160,
  -- 156  useStatement: "use" "(" predicateList ")" "with"
  taking .leftParen 161,
  -- 157  predicateTail: "," predicate
  ⟨[(.comma, .shift 152), (.rightParen, .reduce .predicateTail 2 .plain)],
    [(.predicateTail, 162)]⟩,
  -- 158  predicate: identifier "=" literal
  performing (.reduce .predicate 3 .assignment) [.comma, .rightParen],
  -- 159  waveExpression: … "amp" "=" rateConstant "," "period" "="
  taking .duration 163,
  -- 160  burstExpression: … "peak" "=" rateConstant "," "every" "="
  taking .duration 164,
  -- 161  useStatement: "use" "(" predicateList ")" "with" "("
  taking .number 165,
  -- 162  predicateTail: "," predicate predicateTail
  performing (.reduce .predicateTail 3 .plain) [.rightParen],
  -- 163  waveExpression: … "=" rateConstant "," "period" "=" duration
  ⟨[(.comma, .shift 166), (.rightParen, .shift 167)], []⟩,
  -- 164  burstExpression: … "=" rateConstant "," "every" "=" duration
  taking .comma 168,
  -- 165  useStatement: "use" "(" predicateList ")" "with" "(" number
  taking .comma 169,
  -- 166  waveExpression: … rateConstant "," "period" "=" duration ","
  taking .kwShape 170,
  -- 167  waveExpression: … rateConstant "," "period" "=" duration ")"
  performing (.reduce .waveExpression 14 .wave) [.rightBrace, .kwStream],
  -- 168  burstExpression: … rateConstant "," "every" "=" duration ","
  taking .kwHold 171,
  -- 169  useStatement: "use" "(" predicateList ")" "with" "(" number ","
  taking .duration 172,
  -- 170  waveExpression: … "," "period" "=" duration "," "shape"
  taking .equals 173,
  -- 171  burstExpression: … "," "every" "=" duration "," "hold"
  taking .equals 174,
  -- 172  useStatement: "use" "(" predicateList ")" "with" "(" number "," duration
  taking .rightParen 175,
  -- 173  waveExpression: … "," "period" "=" duration "," "shape" "="
  ⟨[(.kwSine, .shift 177), (.kwTriangle, .shift 178), (.kwSquare, .shift 179)],
    [(.waveShape, 176)]⟩,
  -- 174  burstExpression: … "," "every" "=" duration "," "hold" "="
  taking .duration 180,
  -- 175  useStatement: "use" "(" predicateList ")" "with" "(" number "," duration ")"
  performing (.reduce .useStatement 10 .useStatement) [.kwUse, .rightBrace],
  -- 176  waveExpression: … "=" duration "," "shape" "=" waveShape
  taking .rightParen 181,
  -- 177  waveShape: "sine"
  performing (.reduce .waveShape 1 .plain) [.rightParen],
  -- 178  waveShape: "triangle"
  performing (.reduce .waveShape 1 .plain) [.rightParen],
  -- 179  waveShape: "square"
  performing (.reduce .waveShape 1 .plain) [.rightParen],
  -- 180  burstExpression: … "=" duration "," "hold" "=" duration
  taking .rightParen 182,
  -- 181  waveExpression: … "=" duration "," "shape" "=" waveShape ")"
  performing (.reduce .waveExpression 18 .shapedWave) [.rightBrace, .kwStream],
  -- 182  burstExpression: … "=" duration "," "hold" "=" duration ")"
  performing (.reduce .burstExpression 18 .burst) [.rightBrace, .kwStream]]

end ScenarioSyntax.Table
