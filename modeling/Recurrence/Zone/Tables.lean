/-
# The transitions of the known zones

Each table holds the offset before its first transition and the transitions.

Key definitions: `newYork`, `losAngeles`, `london`, `tokyo`, `kolkata`, `lordHowe`,
`apia`, `saoPaulo`.
-/
import Recurrence.Zone.Transitions

namespace Recurrence.TransitionTable

/-- From the instant on, the offset is the given one. -/
def since (start offset : Int) : Transition := ⟨start, offset⟩

/-- Offsets of `America/New_York`. -/
def newYork : TransitionTable where
  first := -17762
  transitions :=
    [since (-2717633038) (-18000), since (-1633280400) (-14400), since (-1615140000) (-18000),
     since (-1601830800) (-14400), since (-1583690400) (-18000), since (-1570381200) (-14400),
     since (-1551636000) (-18000), since (-1536512400) (-14400), since (-1523210400) (-18000),
     since (-1504458000) (-14400), since (-1491760800) (-18000), since (-1473008400) (-14400),
     since (-1459706400) (-18000), since (-1441558800) (-14400), since (-1428256800) (-18000),
     since (-1410109200) (-14400), since (-1396807200) (-18000), since (-1378659600) (-14400),
     since (-1365357600) (-18000), since (-1347210000) (-14400), since (-1333908000) (-18000),
     since (-1315155600) (-14400), since (-1301853600) (-18000), since (-1283706000) (-14400),
     since (-1270404000) (-18000), since (-1252256400) (-14400), since (-1238954400) (-18000),
     since (-1220806800) (-14400), since (-1207504800) (-18000), since (-1189357200) (-14400),
     since (-1176055200) (-18000), since (-1157302800) (-14400), since (-1144605600) (-18000),
     since (-1125853200) (-14400), since (-1112551200) (-18000), since (-1094403600) (-14400),
     since (-1081101600) (-18000), since (-1062954000) (-14400), since (-1049652000) (-18000),
     since (-1031504400) (-14400), since (-1018202400) (-18000), since (-1000054800) (-14400),
     since (-986752800) (-18000), since (-968000400) (-14400), since (-955303200) (-18000),
     since (-936550800) (-14400), since (-923248800) (-18000), since (-905101200) (-14400),
     since (-891799200) (-18000), since (-880218000) (-14400), since (-765396000) (-18000),
     since (-747248400) (-14400), since (-733946400) (-18000), since (-715798800) (-14400),
     since (-702496800) (-18000), since (-684349200) (-14400), since (-671047200) (-18000),
     since (-652899600) (-14400), since (-639597600) (-18000), since (-620845200) (-14400),
     since (-608148000) (-18000), since (-589395600) (-14400), since (-576093600) (-18000),
     since (-557946000) (-14400), since (-544644000) (-18000), since (-526496400) (-14400),
     since (-513194400) (-18000), since (-495046800) (-14400), since (-481744800) (-18000),
     since (-463597200) (-14400), since (-447271200) (-18000), since (-431542800) (-14400),
     since (-415821600) (-18000), since (-400093200) (-14400), since (-384372000) (-18000),
     since (-368643600) (-14400), since (-352922400) (-18000), since (-337194000) (-14400),
     since (-321472800) (-18000), since (-305744400) (-14400), since (-289418400) (-18000),
     since (-273690000) (-14400), since (-257968800) (-18000), since (-242240400) (-14400),
     since (-226519200) (-18000), since (-210790800) (-14400), since (-195069600) (-18000),
     since (-179341200) (-14400), since (-163620000) (-18000), since (-147891600) (-14400),
     since (-131565600) (-18000), since (-116442000) (-14400), since (-100116000) (-18000),
     since (-84387600) (-14400), since (-68666400) (-18000), since (-52938000) (-14400),
     since (-37216800) (-18000), since (-21488400) (-14400), since (-5767200) (-18000),
     since 9961200 (-14400), since 25682400 (-18000), since 41410800 (-14400),
     since 57736800 (-18000), since 73465200 (-14400), since 89186400 (-18000),
     since 104914800 (-14400), since 120636000 (-18000), since 126687600 (-14400),
     since 152085600 (-18000), since 162370800 (-14400), since 183535200 (-18000),
     since 199263600 (-14400), since 215589600 (-18000), since 230713200 (-14400),
     since 247039200 (-18000), since 262767600 (-14400), since 278488800 (-18000),
     since 294217200 (-14400), since 309938400 (-18000), since 325666800 (-14400),
     since 341388000 (-18000), since 357116400 (-14400), since 372837600 (-18000),
     since 388566000 (-14400), since 404892000 (-18000), since 420015600 (-14400),
     since 436341600 (-18000), since 452070000 (-14400), since 467791200 (-18000),
     since 483519600 (-14400), since 499240800 (-18000), since 514969200 (-14400),
     since 530690400 (-18000), since 544604400 (-14400), since 562140000 (-18000),
     since 576054000 (-14400), since 594194400 (-18000), since 607503600 (-14400),
     since 625644000 (-18000), since 638953200 (-14400), since 657093600 (-18000),
     since 671007600 (-14400), since 688543200 (-18000), since 702457200 (-14400),
     since 719992800 (-18000), since 733906800 (-14400), since 752047200 (-18000),
     since 765356400 (-14400), since 783496800 (-18000), since 796806000 (-14400),
     since 814946400 (-18000), since 828860400 (-14400), since 846396000 (-18000),
     since 860310000 (-14400), since 877845600 (-18000), since 891759600 (-14400),
     since 909295200 (-18000), since 923209200 (-14400), since 941349600 (-18000),
     since 954658800 (-14400), since 972799200 (-18000), since 986108400 (-14400),
     since 1004248800 (-18000), since 1018162800 (-14400), since 1035698400 (-18000),
     since 1049612400 (-14400), since 1067148000 (-18000), since 1081062000 (-14400),
     since 1099202400 (-18000), since 1112511600 (-14400), since 1130652000 (-18000),
     since 1143961200 (-14400), since 1162101600 (-18000), since 1173596400 (-14400),
     since 1194156000 (-18000), since 1205046000 (-14400), since 1225605600 (-18000),
     since 1236495600 (-14400), since 1257055200 (-18000), since 1268550000 (-14400),
     since 1289109600 (-18000), since 1299999600 (-14400), since 1320559200 (-18000),
     since 1331449200 (-14400), since 1352008800 (-18000), since 1362898800 (-14400),
     since 1383458400 (-18000), since 1394348400 (-14400), since 1414908000 (-18000),
     since 1425798000 (-14400), since 1446357600 (-18000), since 1457852400 (-14400),
     since 1478412000 (-18000), since 1489302000 (-14400), since 1509861600 (-18000),
     since 1520751600 (-14400), since 1541311200 (-18000), since 1552201200 (-14400),
     since 1572760800 (-18000), since 1583650800 (-14400), since 1604210400 (-18000),
     since 1615705200 (-14400), since 1636264800 (-18000), since 1647154800 (-14400),
     since 1667714400 (-18000), since 1678604400 (-14400), since 1699164000 (-18000),
     since 1710054000 (-14400), since 1730613600 (-18000), since 1741503600 (-14400),
     since 1762063200 (-18000), since 1772953200 (-14400), since 1793512800 (-18000),
     since 1805007600 (-14400), since 1825567200 (-18000), since 1836457200 (-14400),
     since 1857016800 (-18000), since 1867906800 (-14400), since 1888466400 (-18000),
     since 1899356400 (-14400), since 1919916000 (-18000), since 1930806000 (-14400),
     since 1951365600 (-18000), since 1962860400 (-14400), since 1983420000 (-18000),
     since 1994310000 (-14400), since 2014869600 (-18000), since 2025759600 (-14400),
     since 2046319200 (-18000), since 2057209200 (-14400), since 2077768800 (-18000),
     since 2088658800 (-14400), since 2109218400 (-18000), since 2120108400 (-14400),
     since 2140668000 (-18000), since 2152162800 (-14400), since 2172722400 (-18000),
     since 2183612400 (-14400), since 2204172000 (-18000), since 2215062000 (-14400),
     since 2235621600 (-18000), since 2246511600 (-14400), since 2267071200 (-18000),
     since 2277961200 (-14400), since 2298520800 (-18000), since 2309410800 (-14400),
     since 2329970400 (-18000), since 2341465200 (-14400), since 2362024800 (-18000),
     since 2372914800 (-14400), since 2393474400 (-18000), since 2404364400 (-14400),
     since 2424924000 (-18000), since 2435814000 (-14400), since 2456373600 (-18000),
     since 2467263600 (-14400), since 2487823200 (-18000), since 2499318000 (-14400),
     since 2519877600 (-18000), since 2530767600 (-14400), since 2551327200 (-18000),
     since 2562217200 (-14400), since 2582776800 (-18000), since 2593666800 (-14400),
     since 2614226400 (-18000), since 2625116400 (-14400), since 2645676000 (-18000),
     since 2656566000 (-14400), since 2677125600 (-18000), since 2688620400 (-14400),
     since 2709180000 (-18000), since 2720070000 (-14400), since 2740629600 (-18000),
     since 2751519600 (-14400), since 2772079200 (-18000), since 2782969200 (-14400),
     since 2803528800 (-18000), since 2814418800 (-14400), since 2834978400 (-18000),
     since 2846473200 (-14400), since 2867032800 (-18000), since 2877922800 (-14400),
     since 2898482400 (-18000), since 2909372400 (-14400), since 2929932000 (-18000),
     since 2940822000 (-14400), since 2961381600 (-18000), since 2972271600 (-14400),
     since 2992831200 (-18000), since 3003721200 (-14400), since 3024280800 (-18000),
     since 3035775600 (-14400), since 3056335200 (-18000), since 3067225200 (-14400),
     since 3087784800 (-18000), since 3098674800 (-14400), since 3119234400 (-18000),
     since 3130124400 (-14400), since 3150684000 (-18000), since 3161574000 (-14400),
     since 3182133600 (-18000), since 3193023600 (-14400), since 3213583200 (-18000),
     since 3225078000 (-14400), since 3245637600 (-18000), since 3256527600 (-14400),
     since 3277087200 (-18000), since 3287977200 (-14400), since 3308536800 (-18000),
     since 3319426800 (-14400), since 3339986400 (-18000), since 3350876400 (-14400),
     since 3371436000 (-18000), since 3382930800 (-14400), since 3403490400 (-18000),
     since 3414380400 (-14400), since 3434940000 (-18000), since 3445830000 (-14400),
     since 3466389600 (-18000), since 3477279600 (-14400), since 3497839200 (-18000),
     since 3508729200 (-14400), since 3529288800 (-18000), since 3540178800 (-14400),
     since 3560738400 (-18000), since 3572233200 (-14400), since 3592792800 (-18000),
     since 3603682800 (-14400), since 3624242400 (-18000), since 3635132400 (-14400),
     since 3655692000 (-18000), since 3666582000 (-14400), since 3687141600 (-18000),
     since 3698031600 (-14400), since 3718591200 (-18000), since 3730086000 (-14400),
     since 3750645600 (-18000), since 3761535600 (-14400), since 3782095200 (-18000),
     since 3792985200 (-14400), since 3813544800 (-18000), since 3824434800 (-14400),
     since 3844994400 (-18000), since 3855884400 (-14400), since 3876444000 (-18000),
     since 3887334000 (-14400), since 3907893600 (-18000), since 3919388400 (-14400),
     since 3939948000 (-18000), since 3950838000 (-14400), since 3971397600 (-18000),
     since 3982287600 (-14400), since 4002847200 (-18000), since 4013737200 (-14400),
     since 4034296800 (-18000), since 4045186800 (-14400), since 4065746400 (-18000),
     since 4076636400 (-14400), since 4097196000 (-18000)]

/-- Offsets of `America/Los_Angeles`. -/
def losAngeles : TransitionTable where
  first := -28378
  transitions :=
    [since (-2717611622) (-28800), since (-1633269600) (-25200), since (-1615129200) (-28800),
     since (-1601820000) (-25200), since (-1583679600) (-28800), since (-880207200) (-25200),
     since (-765385200) (-28800), since (-687967140) (-25200), since (-662655600) (-28800),
     since (-620838000) (-25200), since (-608137200) (-28800), since (-589388400) (-25200),
     since (-576082800) (-28800), since (-557938800) (-25200), since (-544633200) (-28800),
     since (-526489200) (-25200), since (-513183600) (-28800), since (-495039600) (-25200),
     since (-481734000) (-28800), since (-463590000) (-25200), since (-450284400) (-28800),
     since (-431535600) (-25200), since (-418230000) (-28800), since (-400086000) (-25200),
     since (-386780400) (-28800), since (-368636400) (-25200), since (-355330800) (-28800),
     since (-337186800) (-25200), since (-323881200) (-28800), since (-305737200) (-25200),
     since (-292431600) (-28800), since (-273682800) (-25200), since (-260982000) (-28800),
     since (-242233200) (-25200), since (-226508400) (-28800), since (-210783600) (-25200),
     since (-195058800) (-28800), since (-179334000) (-25200), since (-163609200) (-28800),
     since (-147884400) (-25200), since (-131554800) (-28800), since (-116434800) (-25200),
     since (-100105200) (-28800), since (-84376800) (-25200), since (-68655600) (-28800),
     since (-52927200) (-25200), since (-37206000) (-28800), since (-21477600) (-25200),
     since (-5756400) (-28800), since 9972000 (-25200), since 25693200 (-28800),
     since 41421600 (-25200), since 57747600 (-28800), since 73476000 (-25200),
     since 89197200 (-28800), since 104925600 (-25200), since 120646800 (-28800),
     since 126698400 (-25200), since 152096400 (-28800), since 162381600 (-25200),
     since 183546000 (-28800), since 199274400 (-25200), since 215600400 (-28800),
     since 230724000 (-25200), since 247050000 (-28800), since 262778400 (-25200),
     since 278499600 (-28800), since 294228000 (-25200), since 309949200 (-28800),
     since 325677600 (-25200), since 341398800 (-28800), since 357127200 (-25200),
     since 372848400 (-28800), since 388576800 (-25200), since 404902800 (-28800),
     since 420026400 (-25200), since 436352400 (-28800), since 452080800 (-25200),
     since 467802000 (-28800), since 483530400 (-25200), since 499251600 (-28800),
     since 514980000 (-25200), since 530701200 (-28800), since 544615200 (-25200),
     since 562150800 (-28800), since 576064800 (-25200), since 594205200 (-28800),
     since 607514400 (-25200), since 625654800 (-28800), since 638964000 (-25200),
     since 657104400 (-28800), since 671018400 (-25200), since 688554000 (-28800),
     since 702468000 (-25200), since 720003600 (-28800), since 733917600 (-25200),
     since 752058000 (-28800), since 765367200 (-25200), since 783507600 (-28800),
     since 796816800 (-25200), since 814957200 (-28800), since 828871200 (-25200),
     since 846406800 (-28800), since 860320800 (-25200), since 877856400 (-28800),
     since 891770400 (-25200), since 909306000 (-28800), since 923220000 (-25200),
     since 941360400 (-28800), since 954669600 (-25200), since 972810000 (-28800),
     since 986119200 (-25200), since 1004259600 (-28800), since 1018173600 (-25200),
     since 1035709200 (-28800), since 1049623200 (-25200), since 1067158800 (-28800),
     since 1081072800 (-25200), since 1099213200 (-28800), since 1112522400 (-25200),
     since 1130662800 (-28800), since 1143972000 (-25200), since 1162112400 (-28800),
     since 1173607200 (-25200), since 1194166800 (-28800), since 1205056800 (-25200),
     since 1225616400 (-28800), since 1236506400 (-25200), since 1257066000 (-28800),
     since 1268560800 (-25200), since 1289120400 (-28800), since 1300010400 (-25200),
     since 1320570000 (-28800), since 1331460000 (-25200), since 1352019600 (-28800),
     since 1362909600 (-25200), since 1383469200 (-28800), since 1394359200 (-25200),
     since 1414918800 (-28800), since 1425808800 (-25200), since 1446368400 (-28800),
     since 1457863200 (-25200), since 1478422800 (-28800), since 1489312800 (-25200),
     since 1509872400 (-28800), since 1520762400 (-25200), since 1541322000 (-28800),
     since 1552212000 (-25200), since 1572771600 (-28800), since 1583661600 (-25200),
     since 1604221200 (-28800), since 1615716000 (-25200), since 1636275600 (-28800),
     since 1647165600 (-25200), since 1667725200 (-28800), since 1678615200 (-25200),
     since 1699174800 (-28800), since 1710064800 (-25200), since 1730624400 (-28800),
     since 1741514400 (-25200), since 1762074000 (-28800), since 1772964000 (-25200),
     since 1793523600 (-28800), since 1805018400 (-25200), since 1825578000 (-28800),
     since 1836468000 (-25200), since 1857027600 (-28800), since 1867917600 (-25200),
     since 1888477200 (-28800), since 1899367200 (-25200), since 1919926800 (-28800),
     since 1930816800 (-25200), since 1951376400 (-28800), since 1962871200 (-25200),
     since 1983430800 (-28800), since 1994320800 (-25200), since 2014880400 (-28800),
     since 2025770400 (-25200), since 2046330000 (-28800), since 2057220000 (-25200),
     since 2077779600 (-28800), since 2088669600 (-25200), since 2109229200 (-28800),
     since 2120119200 (-25200), since 2140678800 (-28800), since 2152173600 (-25200),
     since 2172733200 (-28800), since 2183623200 (-25200), since 2204182800 (-28800),
     since 2215072800 (-25200), since 2235632400 (-28800), since 2246522400 (-25200),
     since 2267082000 (-28800), since 2277972000 (-25200), since 2298531600 (-28800),
     since 2309421600 (-25200), since 2329981200 (-28800), since 2341476000 (-25200),
     since 2362035600 (-28800), since 2372925600 (-25200), since 2393485200 (-28800),
     since 2404375200 (-25200), since 2424934800 (-28800), since 2435824800 (-25200),
     since 2456384400 (-28800), since 2467274400 (-25200), since 2487834000 (-28800),
     since 2499328800 (-25200), since 2519888400 (-28800), since 2530778400 (-25200),
     since 2551338000 (-28800), since 2562228000 (-25200), since 2582787600 (-28800),
     since 2593677600 (-25200), since 2614237200 (-28800), since 2625127200 (-25200),
     since 2645686800 (-28800), since 2656576800 (-25200), since 2677136400 (-28800),
     since 2688631200 (-25200), since 2709190800 (-28800), since 2720080800 (-25200),
     since 2740640400 (-28800), since 2751530400 (-25200), since 2772090000 (-28800),
     since 2782980000 (-25200), since 2803539600 (-28800), since 2814429600 (-25200),
     since 2834989200 (-28800), since 2846484000 (-25200), since 2867043600 (-28800),
     since 2877933600 (-25200), since 2898493200 (-28800), since 2909383200 (-25200),
     since 2929942800 (-28800), since 2940832800 (-25200), since 2961392400 (-28800),
     since 2972282400 (-25200), since 2992842000 (-28800), since 3003732000 (-25200),
     since 3024291600 (-28800), since 3035786400 (-25200), since 3056346000 (-28800),
     since 3067236000 (-25200), since 3087795600 (-28800), since 3098685600 (-25200),
     since 3119245200 (-28800), since 3130135200 (-25200), since 3150694800 (-28800),
     since 3161584800 (-25200), since 3182144400 (-28800), since 3193034400 (-25200),
     since 3213594000 (-28800), since 3225088800 (-25200), since 3245648400 (-28800),
     since 3256538400 (-25200), since 3277098000 (-28800), since 3287988000 (-25200),
     since 3308547600 (-28800), since 3319437600 (-25200), since 3339997200 (-28800),
     since 3350887200 (-25200), since 3371446800 (-28800), since 3382941600 (-25200),
     since 3403501200 (-28800), since 3414391200 (-25200), since 3434950800 (-28800),
     since 3445840800 (-25200), since 3466400400 (-28800), since 3477290400 (-25200),
     since 3497850000 (-28800), since 3508740000 (-25200), since 3529299600 (-28800),
     since 3540189600 (-25200), since 3560749200 (-28800), since 3572244000 (-25200),
     since 3592803600 (-28800), since 3603693600 (-25200), since 3624253200 (-28800),
     since 3635143200 (-25200), since 3655702800 (-28800), since 3666592800 (-25200),
     since 3687152400 (-28800), since 3698042400 (-25200), since 3718602000 (-28800),
     since 3730096800 (-25200), since 3750656400 (-28800), since 3761546400 (-25200),
     since 3782106000 (-28800), since 3792996000 (-25200), since 3813555600 (-28800),
     since 3824445600 (-25200), since 3845005200 (-28800), since 3855895200 (-25200),
     since 3876454800 (-28800), since 3887344800 (-25200), since 3907904400 (-28800),
     since 3919399200 (-25200), since 3939958800 (-28800), since 3950848800 (-25200),
     since 3971408400 (-28800), since 3982298400 (-25200), since 4002858000 (-28800),
     since 4013748000 (-25200), since 4034307600 (-28800), since 4045197600 (-25200),
     since 4065757200 (-28800), since 4076647200 (-25200), since 4097206800 (-28800)]

/-- Offsets of `Europe/London`. -/
def london : TransitionTable where
  first := -75
  transitions :=
    [since (-3852662325) 0, since (-1691964000) 3600, since (-1680472800) 0,
     since (-1664143200) 3600, since (-1650146400) 0, since (-1633903200) 3600,
     since (-1617487200) 0, since (-1601848800) 3600, since (-1586037600) 0,
     since (-1570399200) 3600, since (-1552168800) 0, since (-1538344800) 3600,
     since (-1522533600) 0, since (-1507500000) 3600, since (-1490565600) 0,
     since (-1473631200) 3600, since (-1460930400) 0, since (-1442786400) 3600,
     since (-1428876000) 0, since (-1410732000) 3600, since (-1396216800) 0,
     since (-1379282400) 3600, since (-1364767200) 0, since (-1348437600) 3600,
     since (-1333317600) 0, since (-1315778400) 3600, since (-1301263200) 0,
     since (-1284328800) 3600, since (-1269813600) 0, since (-1253484000) 3600,
     since (-1238364000) 0, since (-1221429600) 3600, since (-1206914400) 0,
     since (-1189980000) 3600, since (-1175464800) 0, since (-1159135200) 3600,
     since (-1143410400) 0, since (-1126476000) 3600, since (-1111960800) 0,
     since (-1095631200) 3600, since (-1080511200) 0, since (-1063576800) 3600,
     since (-1049061600) 0, since (-1032127200) 3600, since (-1017612000) 0,
     since (-1001282400) 3600, since (-986162400) 0, since (-969228000) 3600,
     since (-950479200) 0, since (-942012000) 3600, since (-904518000) 7200,
     since (-896050800) 3600, since (-875487600) 7200, since (-864601200) 3600,
     since (-844038000) 7200, since (-832546800) 3600, since (-812588400) 7200,
     since (-798073200) 3600, since (-781052400) 7200, since (-772066800) 3600,
     since (-764805600) 0, since (-748476000) 3600, since (-733356000) 0,
     since (-719445600) 3600, since (-717030000) 7200, since (-706748400) 3600,
     since (-699487200) 0, since (-687996000) 3600, since (-668037600) 0,
     since (-654732000) 3600, since (-636588000) 0, since (-622072800) 3600,
     since (-605743200) 0, since (-590623200) 3600, since (-574293600) 0,
     since (-558568800) 3600, since (-542239200) 0, since (-527119200) 3600,
     since (-512604000) 0, since (-496274400) 3600, since (-481154400) 0,
     since (-464220000) 3600, since (-449704800) 0, since (-432165600) 3600,
     since (-417650400) 0, since (-401320800) 3600, since (-386200800) 0,
     since (-369266400) 3600, since (-354751200) 0, since (-337816800) 3600,
     since (-323301600) 0, since (-306972000) 3600, since (-291852000) 0,
     since (-276732000) 3600, since (-257983200) 0, since (-245282400) 3600,
     since (-226533600) 0, since (-213228000) 3600, since (-195084000) 0,
     since (-182383200) 3600, since (-163634400) 0, since (-150933600) 3600,
     since (-132184800) 0, since (-119484000) 3600, since (-100735200) 0, since (-88034400) 3600,
     since (-68680800) 0, since (-59004000) 3600, since 57718800 0, since 69818400 3600,
     since 89172000 0, since 101268000 3600, since 120621600 0, since 132717600 3600,
     since 152071200 0, since 164167200 3600, since 183520800 0, since 196221600 3600,
     since 214970400 0, since 227671200 3600, since 246420000 0, since 259120800 3600,
     since 278474400 0, since 290570400 3600, since 309924000 0, since 322020000 3600,
     since 341373600 0, since 354675600 3600, since 372819600 0, since 386125200 3600,
     since 404269200 0, since 417574800 3600, since 435718800 0, since 449024400 3600,
     since 467773200 0, since 481078800 3600, since 499222800 0, since 512528400 3600,
     since 530672400 0, since 543978000 3600, since 562122000 0, since 575427600 3600,
     since 593571600 0, since 606877200 3600, since 625626000 0, since 638326800 3600,
     since 657075600 0, since 670381200 3600, since 688525200 0, since 701830800 3600,
     since 719974800 0, since 733280400 3600, since 751424400 0, since 764730000 3600,
     since 782874000 0, since 796179600 3600, since 814323600 0, since 828234000 3600,
     since 846378000 0, since 859683600 3600, since 877827600 0, since 891133200 3600,
     since 909277200 0, since 922582800 3600, since 941331600 0, since 954032400 3600,
     since 972781200 0, since 985482000 3600, since 1004230800 0, since 1017536400 3600,
     since 1035680400 0, since 1048986000 3600, since 1067130000 0, since 1080435600 3600,
     since 1099184400 0, since 1111885200 3600, since 1130634000 0, since 1143334800 3600,
     since 1162083600 0, since 1174784400 3600, since 1193533200 0, since 1206838800 3600,
     since 1224982800 0, since 1238288400 3600, since 1256432400 0, since 1269738000 3600,
     since 1288486800 0, since 1301187600 3600, since 1319936400 0, since 1332637200 3600,
     since 1351386000 0, since 1364691600 3600, since 1382835600 0, since 1396141200 3600,
     since 1414285200 0, since 1427590800 3600, since 1445734800 0, since 1459040400 3600,
     since 1477789200 0, since 1490490000 3600, since 1509238800 0, since 1521939600 3600,
     since 1540688400 0, since 1553994000 3600, since 1572138000 0, since 1585443600 3600,
     since 1603587600 0, since 1616893200 3600, since 1635642000 0, since 1648342800 3600,
     since 1667091600 0, since 1679792400 3600, since 1698541200 0, since 1711846800 3600,
     since 1729990800 0, since 1743296400 3600, since 1761440400 0, since 1774746000 3600,
     since 1792890000 0, since 1806195600 3600, since 1824944400 0, since 1837645200 3600,
     since 1856394000 0, since 1869094800 3600, since 1887843600 0, since 1901149200 3600,
     since 1919293200 0, since 1932598800 3600, since 1950742800 0, since 1964048400 3600,
     since 1982797200 0, since 1995498000 3600, since 2014246800 0, since 2026947600 3600,
     since 2045696400 0, since 2058397200 3600, since 2077146000 0, since 2090451600 3600,
     since 2108595600 0, since 2121901200 3600, since 2140045200 0, since 2153350800 3600,
     since 2172099600 0, since 2184800400 3600, since 2203549200 0, since 2216250000 3600,
     since 2234998800 0, since 2248304400 3600, since 2266448400 0, since 2279754000 3600,
     since 2297898000 0, since 2311203600 3600, since 2329347600 0, since 2342653200 3600,
     since 2361402000 0, since 2374102800 3600, since 2392851600 0, since 2405552400 3600,
     since 2424301200 0, since 2437606800 3600, since 2455750800 0, since 2469056400 3600,
     since 2487200400 0, since 2500506000 3600, since 2519254800 0, since 2531955600 3600,
     since 2550704400 0, since 2563405200 3600, since 2582154000 0, since 2595459600 3600,
     since 2613603600 0, since 2626909200 3600, since 2645053200 0, since 2658358800 3600,
     since 2676502800 0, since 2689808400 3600, since 2708557200 0, since 2721258000 3600,
     since 2740006800 0, since 2752707600 3600, since 2771456400 0, since 2784762000 3600,
     since 2802906000 0, since 2816211600 3600, since 2834355600 0, since 2847661200 3600,
     since 2866410000 0, since 2879110800 3600, since 2897859600 0, since 2910560400 3600,
     since 2929309200 0, since 2942010000 3600, since 2960758800 0, since 2974064400 3600,
     since 2992208400 0, since 3005514000 3600, since 3023658000 0, since 3036963600 3600,
     since 3055712400 0, since 3068413200 3600, since 3087162000 0, since 3099862800 3600,
     since 3118611600 0, since 3131917200 3600, since 3150061200 0, since 3163366800 3600,
     since 3181510800 0, since 3194816400 3600, since 3212960400 0, since 3226266000 3600,
     since 3245014800 0, since 3257715600 3600, since 3276464400 0, since 3289165200 3600,
     since 3307914000 0, since 3321219600 3600, since 3339363600 0, since 3352669200 3600,
     since 3370813200 0, since 3384118800 3600, since 3402867600 0, since 3415568400 3600,
     since 3434317200 0, since 3447018000 3600, since 3465766800 0, since 3479072400 3600,
     since 3497216400 0, since 3510522000 3600, since 3528666000 0, since 3541971600 3600,
     since 3560115600 0, since 3573421200 3600, since 3592170000 0, since 3604870800 3600,
     since 3623619600 0, since 3636320400 3600, since 3655069200 0, since 3668374800 3600,
     since 3686518800 0, since 3699824400 3600, since 3717968400 0, since 3731274000 3600,
     since 3750022800 0, since 3762723600 3600, since 3781472400 0, since 3794173200 3600,
     since 3812922000 0, since 3825622800 3600, since 3844371600 0, since 3857677200 3600,
     since 3875821200 0, since 3889126800 3600, since 3907270800 0, since 3920576400 3600,
     since 3939325200 0, since 3952026000 3600, since 3970774800 0, since 3983475600 3600,
     since 4002224400 0, since 4015530000 3600, since 4033674000 0, since 4046979600 3600,
     since 4065123600 0, since 4078429200 3600, since 4096573200 0]

/-- Offsets of `Asia/Tokyo`. -/
def tokyo : TransitionTable where
  first := 33539
  transitions :=
    [since (-2587745939) 32400, since (-683802000) 36000, since (-672310800) 32400,
     since (-654771600) 36000, since (-640861200) 32400, since (-620298000) 36000,
     since (-609411600) 32400, since (-588848400) 36000, since (-577962000) 32400]

/-- Offsets of `Asia/Kolkata`. -/
def kolkata : TransitionTable where
  first := 21208
  transitions :=
    [since (-3645237208) 21200, since (-3155694800) 19270, since (-2019705670) 19800,
     since (-891581400) 23400, since (-872058600) 19800, since (-862637400) 23400,
     since (-764145000) 19800]

/-- Offsets of `Australia/Lord_Howe`. -/
def lordHowe : TransitionTable where
  first := 38180
  transitions :=
    [since (-2364114980) 36000, since 352216800 37800, since 372785400 41400,
     since 384273000 37800, since 404839800 41400, since 415722600 37800, since 436289400 41400,
     since 447172200 37800, since 467739000 41400, since 478621800 37800, since 499188600 39600,
     since 511282800 37800, since 530033400 39600, since 542732400 37800, since 562087800 39600,
     since 574786800 37800, since 594142200 39600, since 606236400 37800, since 625591800 39600,
     since 636476400 37800, since 657041400 39600, since 667926000 37800, since 688491000 39600,
     since 699375600 37800, since 719940600 39600, since 731430000 37800, since 751995000 39600,
     since 762879600 37800, since 783444600 39600, since 794329200 37800, since 814894200 39600,
     since 828198000 37800, since 846343800 39600, since 859647600 37800, since 877793400 39600,
     since 891097200 37800, since 909243000 39600, since 922546800 37800, since 941297400 39600,
     since 953996400 37800, since 967303800 39600, since 985446000 37800, since 1004196600 39600,
     since 1017500400 37800, since 1035646200 39600, since 1048950000 37800,
     since 1067095800 39600, since 1080399600 37800, since 1099150200 39600,
     since 1111849200 37800, since 1130599800 39600, since 1143903600 37800,
     since 1162049400 39600, since 1174748400 37800, since 1193499000 39600,
     since 1207407600 37800, since 1223134200 39600, since 1238857200 37800,
     since 1254583800 39600, since 1270306800 37800, since 1286033400 39600,
     since 1301756400 37800, since 1317483000 39600, since 1333206000 37800,
     since 1349537400 39600, since 1365260400 37800, since 1380987000 39600,
     since 1396710000 37800, since 1412436600 39600, since 1428159600 37800,
     since 1443886200 39600, since 1459609200 37800, since 1475335800 39600,
     since 1491058800 37800, since 1506785400 39600, since 1522508400 37800,
     since 1538839800 39600, since 1554562800 37800, since 1570289400 39600,
     since 1586012400 37800, since 1601739000 39600, since 1617462000 37800,
     since 1633188600 39600, since 1648911600 37800, since 1664638200 39600,
     since 1680361200 37800, since 1696087800 39600, since 1712415600 37800,
     since 1728142200 39600, since 1743865200 37800, since 1759591800 39600,
     since 1775314800 37800, since 1791041400 39600, since 1806764400 37800,
     since 1822491000 39600, since 1838214000 37800, since 1853940600 39600,
     since 1869663600 37800, since 1885995000 39600, since 1901718000 37800,
     since 1917444600 39600, since 1933167600 37800, since 1948894200 39600,
     since 1964617200 37800, since 1980343800 39600, since 1996066800 37800,
     since 2011793400 39600, since 2027516400 37800, since 2043243000 39600,
     since 2058966000 37800, since 2075297400 39600, since 2091020400 37800,
     since 2106747000 39600, since 2122470000 37800, since 2138196600 39600,
     since 2153919600 37800, since 2169646200 39600, since 2185369200 37800,
     since 2201095800 39600, since 2216818800 37800, since 2233150200 39600,
     since 2248873200 37800, since 2264599800 39600, since 2280322800 37800,
     since 2296049400 39600, since 2311772400 37800, since 2327499000 39600,
     since 2343222000 37800, since 2358948600 39600, since 2374671600 37800,
     since 2390398200 39600, since 2406121200 37800, since 2422452600 39600,
     since 2438175600 37800, since 2453902200 39600, since 2469625200 37800,
     since 2485351800 39600, since 2501074800 37800, since 2516801400 39600,
     since 2532524400 37800, since 2548251000 39600, since 2563974000 37800,
     since 2579700600 39600, since 2596028400 37800, since 2611755000 39600,
     since 2627478000 37800, since 2643204600 39600, since 2658927600 37800,
     since 2674654200 39600, since 2690377200 37800, since 2706103800 39600,
     since 2721826800 37800, since 2737553400 39600, since 2753276400 37800,
     since 2769607800 39600, since 2785330800 37800, since 2801057400 39600,
     since 2816780400 37800, since 2832507000 39600, since 2848230000 37800,
     since 2863956600 39600, since 2879679600 37800, since 2895406200 39600,
     since 2911129200 37800, since 2926855800 39600, since 2942578800 37800,
     since 2958910200 39600, since 2974633200 37800, since 2990359800 39600,
     since 3006082800 37800, since 3021809400 39600, since 3037532400 37800,
     since 3053259000 39600, since 3068982000 37800, since 3084708600 39600,
     since 3100431600 37800, since 3116763000 39600, since 3132486000 37800,
     since 3148212600 39600, since 3163935600 37800, since 3179662200 39600,
     since 3195385200 37800, since 3211111800 39600, since 3226834800 37800,
     since 3242561400 39600, since 3258284400 37800, since 3274011000 39600,
     since 3289734000 37800, since 3306065400 39600, since 3321788400 37800,
     since 3337515000 39600, since 3353238000 37800, since 3368964600 39600,
     since 3384687600 37800, since 3400414200 39600, since 3416137200 37800,
     since 3431863800 39600, since 3447586800 37800, since 3463313400 39600,
     since 3479641200 37800, since 3495367800 39600, since 3511090800 37800,
     since 3526817400 39600, since 3542540400 37800, since 3558267000 39600,
     since 3573990000 37800, since 3589716600 39600, since 3605439600 37800,
     since 3621166200 39600, since 3636889200 37800, since 3653220600 39600,
     since 3668943600 37800, since 3684670200 39600, since 3700393200 37800,
     since 3716119800 39600, since 3731842800 37800, since 3747569400 39600,
     since 3763292400 37800, since 3779019000 39600, since 3794742000 37800,
     since 3810468600 39600, since 3826191600 37800, since 3842523000 39600,
     since 3858246000 37800, since 3873972600 39600, since 3889695600 37800,
     since 3905422200 39600, since 3921145200 37800, since 3936871800 39600,
     since 3952594800 37800, since 3968321400 39600, since 3984044400 37800,
     since 4000375800 39600, since 4016098800 37800, since 4031825400 39600,
     since 4047548400 37800, since 4063275000 39600, since 4078998000 37800,
     since 4094724600 39600]

/-- Offsets of `Pacific/Apia`. -/
def apia : TransitionTable where
  first := 45184
  transitions :=
    [since (-2445424384) (-41216), since (-1861878784) (-41400), since (-631110600) (-39600),
     since 1285498800 (-36000), since 1301752800 (-39600), since 1316872800 (-36000),
     since 1325239200 50400, since 1333202400 46800, since 1348927200 50400,
     since 1365256800 46800, since 1380376800 50400, since 1396706400 46800,
     since 1411826400 50400, since 1428156000 46800, since 1443276000 50400,
     since 1459605600 46800, since 1474725600 50400, since 1491055200 46800,
     since 1506175200 50400, since 1522504800 46800, since 1538229600 50400,
     since 1554559200 46800, since 1569679200 50400, since 1586008800 46800,
     since 1601128800 50400, since 1617458400 46800]

/-- Offsets of `America/Sao_Paulo`. -/
def saoPaulo : TransitionTable where
  first := -11188
  transitions :=
    [since (-1767214412) (-10800), since (-1206957600) (-7200), since (-1191362400) (-10800),
     since (-1175374800) (-7200), since (-1159826400) (-10800), since (-633819600) (-7200),
     since (-622069200) (-10800), since (-602283600) (-7200), since (-591832800) (-10800),
     since (-570747600) (-7200), since (-560210400) (-10800), since (-539125200) (-7200),
     since (-531352800) (-10800), since (-195426000) (-7200), since (-184197600) (-10800),
     since (-155163600) (-7200), since (-150069600) (-10800), since (-128898000) (-7200),
     since (-121125600) (-10800), since (-99954000) (-7200), since (-89589600) (-10800),
     since (-68418000) (-7200), since (-57967200) (-10800), since 499748400 (-7200),
     since 511236000 (-10800), since 530593200 (-7200), since 540266400 (-10800),
     since 562129200 (-7200), since 571197600 (-10800), since 592974000 (-7200),
     since 602042400 (-10800), since 624423600 (-7200), since 634701600 (-10800),
     since 656478000 (-7200), since 666756000 (-10800), since 687927600 (-7200),
     since 697600800 (-10800), since 719982000 (-7200), since 728445600 (-10800),
     since 750826800 (-7200), since 761709600 (-10800), since 782276400 (-7200),
     since 793159200 (-10800), since 813726000 (-7200), since 824004000 (-10800),
     since 844570800 (-7200), since 856058400 (-10800), since 876106800 (-7200),
     since 888717600 (-10800), since 908074800 (-7200), since 919562400 (-10800),
     since 938919600 (-7200), since 951616800 (-10800), since 970974000 (-7200),
     since 982461600 (-10800), since 1003028400 (-7200), since 1013911200 (-10800),
     since 1036292400 (-7200), since 1045360800 (-10800), since 1066532400 (-7200),
     since 1076810400 (-10800), since 1099364400 (-7200), since 1108864800 (-10800),
     since 1129431600 (-7200), since 1140314400 (-10800), since 1162695600 (-7200),
     since 1172368800 (-10800), since 1192330800 (-7200), since 1203213600 (-10800),
     since 1224385200 (-7200), since 1234663200 (-10800), since 1255834800 (-7200),
     since 1266717600 (-10800), since 1287284400 (-7200), since 1298167200 (-10800),
     since 1318734000 (-7200), since 1330221600 (-10800), since 1350788400 (-7200),
     since 1361066400 (-10800), since 1382238000 (-7200), since 1392516000 (-10800),
     since 1413687600 (-7200), since 1424570400 (-10800), since 1445137200 (-7200),
     since 1456020000 (-10800), since 1476586800 (-7200), since 1487469600 (-10800),
     since 1508036400 (-7200), since 1518919200 (-10800), since 1541300400 (-7200),
     since 1550368800 (-10800)]

end Recurrence.TransitionTable
